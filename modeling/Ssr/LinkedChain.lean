/-
# Chains with marked nodes

A chain of nodes that are linked behind a reached node, marked, and unlinked again, over
an arbitrary order that the links respect.  `linked` remembers every node that was ever
put into the chain, also after it has left it.

* `Chained` — the links of linked nodes lead on to linked nodes, and a linked node that is
  not marked is reached from the root;
* `Chained.insert`, `Chained.delete` — the two changes, with what is reached after them;
* `Chained.mono` — changes that no chain sees;
* `Chained.reach_unmarked` — an unmarked node in front of a reached node leads to it;
* `reach_of_insert`, `reach_before_delete` — nothing else is reached after them.

Nothing here refers to a particular program.
-/
import Ssr.Chain

namespace LinkedChain

open Chain

variable {α : Type*} {succ succ' : α → Option α} {mark mark' : α → Bool}
  {linked : α → Prop} {root a b n p i x : α} {lt lt' : α → α → Prop}

/-! ## The two changes of a link -/

/-- Linking a node behind another one adds nothing else to what a node leads to. -/
theorem reach_of_insert [DecidableEq α] (hpn : p ≠ n) (hsucc : succ n = succ p)
    (hax : Reach (Function.update succ p (some n)) a x) : Reach succ a x ∨ x = n := by
  -- the new node comes right behind `p`
  have key : Reach succ a x ∨ x = n ∧ Reach succ a p := by
    induction hax with
    | refl => exact .inl (Reach.refl a)
    | @tail y z _ hyz ih =>
      by_cases hy : y = p
      · subst hy
        rw [Function.update_self] at hyz
        obtain rfl := Option.some.inj hyz
        rcases ih with ih | ⟨heq, -⟩
        · exact .inr ⟨rfl, ih⟩
        · exact absurd heq hpn
      · rw [Function.update_of_ne hy] at hyz
        rcases ih with ih | ⟨rfl, ih⟩
        · exact .inl (ih.tail hyz)
        · exact .inl (ih.tail (hsucc.symm.trans hyz))
  exact key.imp_right And.left

/-- Linking past a node adds nothing to what a node leads to. -/
theorem reach_before_delete [DecidableEq α] (hpi : succ p = some i)
    (hax : Reach (Function.update succ p (succ i)) a x) : Reach succ a x := by
  induction hax with
  | refl => exact Reach.refl a
  | @tail y z _ hyz ih =>
    by_cases hy : y = p
    · subst hy
      rw [Function.update_self] at hyz
      exact (ih.tail hpi).tail hyz
    · rw [Function.update_of_ne hy] at hyz
      exact ih.tail hyz

/-! ## Chains with a past -/

/-- The chain from `root` over the nodes that were ever `linked`. -/
structure Chained (succ : α → Option α) (mark : α → Bool) (linked : α → Prop) (root : α)
    (lt : α → α → Prop) : Prop where
  trans : ∀ a b c, lt a b → lt b c → lt a c
  irrefl : ∀ a, ¬ lt a a
  root_linked : linked root
  root_unmarked : mark root = false
  link : ∀ a b, linked a → succ a = some b → linked b ∧ lt a b
  reached : ∀ a, linked a → mark a = false → Reach succ root a

namespace Chained

/-! ## Following the links -/

/-- Along the chain the nodes grow. -/
theorem le_of_reach (h : Chained succ mark linked root lt) (ha : linked a)
    (hab : Reach succ a b) : linked b ∧ (a = b ∨ lt a b) := by
  induction hab with
  | refl => exact ⟨ha, .inl rfl⟩
  | @tail x y _ hxy ih =>
    obtain ⟨hx, hax⟩ := ih
    obtain ⟨hy, hlt⟩ := h.link x y hx hxy
    refine ⟨hy, .inr ?_⟩
    rcases hax with rfl | hax
    · exact hlt
    · exact h.trans a x y hax hlt

theorem linked_of_reach (h : Chained succ mark linked root lt) (ha : Reach succ root a) :
    linked a :=
  (h.le_of_reach h.root_linked ha).1

/-- What a linked node leads to depends on the successors of linked nodes alone. -/
theorem reach_congr (h : Chained succ mark linked root lt)
    (hsucc : ∀ x, linked x → succ' x = succ x) (ha : linked a) :
    Reach succ' a b ↔ Reach succ a b := by
  constructor
  · intro hab
    refine Reach.congr (S := linked) ha ?_ (fun x hx => (hsucc x hx).symm) hab
    intro x y hx hxy
    exact (h.link x y hx ((hsucc x hx).symm.trans hxy)).1
  · intro hab
    exact Reach.congr (S := linked) ha (fun x y hx hxy => (h.link x y hx hxy).1) hsucc hab

/-- A reached node that is not in front of an unmarked one lies behind it. -/
theorem reach_unmarked (h : Chained succ mark linked root lt) (hp : linked p)
    (hm : mark p = false) (hx : Reach succ root x) (hne : p ≠ x) (hlt : ¬ lt x p) :
    ∃ b, succ p = some b ∧ Reach succ b x := by
  have hpx : Reach succ p x := by
    rcases (h.reached p hp hm).total hx with hpx | hxp
    · exact hpx
    · rcases (h.le_of_reach (h.linked_of_reach hx) hxp).2 with rfl | hxp
      · exact absurd rfl hne
      · exact absurd hxp hlt
  rcases hpx.cases_head with rfl | hhead
  · exact absurd rfl hne
  · exact hhead

/-! ## The changes -/

/-- A change that no chain sees: the links of linked nodes stay, marks may be added, and
the order may hold of more. -/
theorem mono (h : Chained succ mark linked root lt)
    (hsucc : ∀ x, linked x → succ' x = succ x)
    (hmark : ∀ x, linked x → mark' x = false → mark x = false) (hroot : mark' root = false)
    (htrans : ∀ a b c, lt' a b → lt' b c → lt' a c) (hirrefl : ∀ a, ¬ lt' a a)
    (hlt : ∀ a b, linked a → linked b → lt a b → lt' a b) :
    Chained succ' mark' linked root lt' where
  trans := htrans
  irrefl := hirrefl
  root_linked := h.root_linked
  root_unmarked := hroot
  link := by
    intro a b ha hab
    rw [hsucc a ha] at hab
    obtain ⟨hb, hab⟩ := h.link a b ha hab
    exact ⟨hb, hlt a b ha hb hab⟩
  reached := by
    intro a ha hm
    rw [h.reach_congr hsucc h.root_linked]
    exact h.reached a ha (hmark a ha hm)

section Update

variable [DecidableEq α]

/-- Linking a new node behind an unmarked one adds exactly it. -/
theorem reach_insert (h : Chained succ mark linked root lt) (hp : linked p)
    (hm : mark p = false) (hn : ¬ linked n) (hsucc : succ n = succ p) :
    Reach (Function.update succ p (some n)) root x ↔ Reach succ root x ∨ x = n := by
  have hpn : p ≠ n := by
    rintro rfl
    exact hn hp
  constructor
  · exact reach_of_insert hpn hsucc
  · rintro (hx | rfl)
    · exact hx.insert hsucc hpn
    · have hreach : Reach (Function.update succ p (some x)) root p :=
        (h.reached p hp hm).insert hsucc hpn
      exact hreach.tail (Function.update_self _ _ _)

/-- A new node is linked behind an unmarked one. -/
theorem insert (h : Chained succ mark linked root lt) (hp : linked p) (hm : mark p = false)
    (hn : ¬ linked n) (hsucc : succ n = succ p) (hpn : lt p n)
    (hnb : ∀ b, succ p = some b → lt n b) :
    Chained (Function.update succ p (some n)) mark (fun x => linked x ∨ x = n) root lt where
  trans := h.trans
  irrefl := h.irrefl
  root_linked := .inl h.root_linked
  root_unmarked := h.root_unmarked
  link := by
    intro a b ha hab
    by_cases hap : a = p
    · subst hap
      rw [Function.update_self] at hab
      obtain rfl := Option.some.inj hab
      exact ⟨.inr rfl, hpn⟩
    · rw [Function.update_of_ne hap] at hab
      rcases ha with ha | rfl
      · obtain ⟨hb, hlt⟩ := h.link a b ha hab
        exact ⟨.inl hb, hlt⟩
      · rw [hsucc] at hab
        exact ⟨.inl (h.link p b hp hab).1, hnb b hab⟩
  reached := by
    intro a ha hma
    rw [h.reach_insert hp hm hn hsucc]
    exact ha.imp_left fun ha => h.reached a ha hma

/-- Linking past a marked node removes exactly it. -/
theorem reach_delete (h : Chained succ mark linked root lt) (hp : linked p)
    (hm : mark p = false) (hpi : succ p = some i) :
    Reach (Function.update succ p (succ i)) root x ↔ Reach succ root x ∧ x ≠ i := by
  classical
  have hi : linked i := (h.link p i hp hpi).1
  -- the links of the linked nodes alone are sorted
  let only : (α → Option α) → α → Option α := fun f x => if linked x then f x else none
  have honly : ∀ f x, linked x → only f x = f x := fun f x hx => if_pos hx
  have hsorted : Sorted (only succ) lt := by
    refine ⟨h.trans, h.irrefl, fun a b hab => ?_⟩
    by_cases ha : linked a
    · rw [honly succ a ha] at hab
      exact (h.link a b ha hab).2
    · rw [show only succ a = none from if_neg ha] at hab
      exact absurd hab (by simp)
  have hri : root ≠ i := by
    rintro rfl
    rcases (h.le_of_reach h.root_linked (h.reached p hp hm)).2 with rfl | hlt
    · exact h.irrefl _ (h.link _ _ hp hpi).2
    · exact h.irrefl _ (h.trans _ _ _ hlt (h.link p _ hp hpi).2)
  have hpr : Reach (only succ) root p :=
    (h.reach_congr (honly succ) h.root_linked).mpr (h.reached p hp hm)
  have hdel := reach_delete_iff (x := x) hsorted ((honly succ p hp).trans hpi) hri hpr
  rw [honly succ i hi, h.reach_congr (honly succ) h.root_linked] at hdel
  rw [← hdel]
  have hclosed : ∀ y z, linked y → Function.update succ p (succ i) y = some z → linked z := by
    intro y z hy hyz
    by_cases hyp : y = p
    · subst hyp
      rw [Function.update_self] at hyz
      exact (h.link i z hi hyz).1
    · rw [Function.update_of_ne hyp] at hyz
      exact (h.link y z hy hyz).1
  have heq : ∀ y, linked y →
      Function.update (only succ) p (succ i) y = Function.update succ p (succ i) y := by
    intro y hy
    by_cases hyp : y = p
    · rw [hyp, Function.update_self, Function.update_self]
    · rw [Function.update_of_ne hyp, Function.update_of_ne hyp, honly succ y hy]
  constructor
  · exact Reach.congr (S := linked) h.root_linked hclosed heq
  · refine Reach.congr (S := linked) h.root_linked ?_ fun y hy => (heq y hy).symm
    intro y z hy hyz
    exact hclosed y z hy ((heq y hy).symm.trans hyz)

/-- A marked node is unlinked. -/
theorem delete (h : Chained succ mark linked root lt) (hp : linked p) (hm : mark p = false)
    (hpi : succ p = some i) (hmi : mark i = true) :
    Chained (Function.update succ p (succ i)) mark linked root lt where
  trans := h.trans
  irrefl := h.irrefl
  root_linked := h.root_linked
  root_unmarked := h.root_unmarked
  link := by
    intro a b ha hab
    by_cases hap : a = p
    · subst hap
      rw [Function.update_self] at hab
      obtain ⟨hi, hlt⟩ := h.link a i ha hpi
      obtain ⟨hb, hlt'⟩ := h.link i b hi hab
      exact ⟨hb, h.trans a i b hlt hlt'⟩
    · rw [Function.update_of_ne hap] at hab
      exact h.link a b ha hab
  reached := by
    intro a ha hma
    rw [h.reach_delete hp hm hpi]
    refine ⟨h.reached a ha hma, ?_⟩
    rintro rfl
    rw [hmi] at hma
    exact absurd hma (by simp)

/-- A linked node leads to what it led to before another node was unlinked. -/
theorem reach_of_delete (h : Chained succ mark linked root lt) (hp : linked p)
    (hpi : succ p = some i) (hx : x ≠ i) (hax : Reach succ a x) :
    Reach (Function.update succ p (succ i)) a x := by
  have hip : i ≠ p := by
    rintro rfl
    exact h.irrefl _ (h.link _ _ hp hpi).2
  refine hax.bypass hpi hip (fun y => ?_) hx
  exact Function.update_apply succ p (succ i) y

end Update

end Chained

end LinkedChain
