/-
# Chains of successors

A partial successor function `next : α → Option α` and the nodes that are
reached from a root by following it.  The two updates of a sorted chain are
studied once, over an arbitrary strict order on the nodes that the links
respect:

* `reach_insert_iff` — linking a new node behind a reached one adds exactly it;
* `reach_delete_iff` — linking past a node removes exactly that node;
* `Spells` — the list of the nodes from a pointer on;
* `Links` — the list of the nodes behind a node, and `Links.splice`, which changes the
  successor of the last node of a prefix.

Nothing here refers to a particular program.
-/
import Mathlib.Logic.Relation
import Mathlib.Logic.Function.Basic
import Mathlib.Order.Defs.Unbundled
import Mathlib.Tactic

namespace Chain

variable {α : Type*} {next : α → Option α}

/-- `b` is reached from `a` by following `next`. -/
def Reach (next : α → Option α) : α → α → Prop :=
  Relation.ReflTransGen fun a b => next a = some b

theorem Reach.refl (a : α) : Reach next a a := Relation.ReflTransGen.refl

theorem Reach.tail {a b c : α} (h : Reach next a b) (hc : next b = some c) : Reach next a c :=
  Relation.ReflTransGen.tail h hc

theorem Reach.head {a b c : α} (hb : next a = some b) (h : Reach next b c) : Reach next a c :=
  Relation.ReflTransGen.head hb h

theorem Reach.trans {a b c : α} (h : Reach next a b) (h' : Reach next b c) : Reach next a c :=
  Relation.ReflTransGen.trans h h'

/-- Of two nodes reached from a common one, one is reached from the other. -/
theorem Reach.total {a b c : α} (hb : Reach next a b) (hc : Reach next a c) :
    Reach next b c ∨ Reach next c b := by
  refine Relation.ReflTransGen.total_of_right_unique ?_ hb hc
  intro x y z hy hz
  exact Option.some.inj (hy.symm.trans hz)

/-- The first link of a chain of at least one link. -/
theorem Reach.cases_head {a b : α} (h : Reach next a b) :
    a = b ∨ ∃ c, next a = some c ∧ Reach next c b :=
  Relation.ReflTransGen.cases_head h

/-- A change of the links outside of a closed set does not touch the chains in it. -/
theorem Reach.congr {next' : α → Option α} {S : α → Prop} {a b : α} (ha : S a)
    (hS : ∀ x y, S x → next x = some y → S y) (heq : ∀ x, S x → next' x = next x)
    (h : Reach next a b) : Reach next' a b := by
  have key : Reach next' a b ∧ S b := by
    induction h with
    | refl => exact ⟨Reach.refl a, ha⟩
    | @tail x y _ hxy ih =>
      refine ⟨ih.1.tail ?_, hS x y ih.2 hxy⟩
      rw [heq x ih.2]
      exact hxy
  exact key.1

/-! ## Sorted chains -/

/-- The links respect a strict order. -/
structure Sorted (next : α → Option α) (lt : α → α → Prop) : Prop where
  trans : ∀ a b c, lt a b → lt b c → lt a c
  irrefl : ∀ a, ¬ lt a a
  link : ∀ a b, next a = some b → lt a b

section Sorted

variable {lt : α → α → Prop}

/-- Along a sorted chain the nodes grow. -/
theorem Reach.eq_or_lt (hs : Sorted next lt) {a b : α} (h : Reach next a b) :
    a = b ∨ lt a b := by
  induction h with
  | refl => exact Or.inl rfl
  | @tail x y _ hxy ih =>
    rcases ih with rfl | ih
    · exact Or.inr (hs.link _ _ hxy)
    · exact Or.inr (hs.trans _ _ _ ih (hs.link x y hxy))

/-- On a sorted chain nothing is reached from a later node. -/
theorem Reach.antisymm (hs : Sorted next lt) {a b : α} (h : Reach next a b)
    (h' : Reach next b a) : a = b := by
  rcases h.eq_or_lt hs with hab | hab
  · exact hab
  · rcases h'.eq_or_lt hs with hba | hba
    · exact hba.symm
    · exact absurd (hs.trans _ _ _ hab hba) (hs.irrefl a)

/-- On a sorted chain a node has one predecessor. -/
theorem Reach.pred_unique (hs : Sorted next lt) {r a b c : α} (ha : Reach next r a)
    (hb : Reach next r b) (hac : next a = some c) (hbc : next b = some c) : a = b := by
  have key : ∀ x y, next x = some c → next y = some c → Reach next x y → x = y := by
    intro x y hx hy hxy
    rcases hxy.cases_head with h | ⟨z, hz, hzy⟩
    · exact h
    · obtain rfl : z = c := Option.some.inj (hz.symm.trans hx)
      -- `y` would lie both behind and before its successor
      have hyz := hzy.antisymm hs ((Reach.refl y).tail hy)
      subst hyz
      exact absurd (hs.link _ _ hy) (hs.irrefl _)
  rcases ha.total hb with h | h
  · exact key a b hac hbc h
  · exact (key b a hbc hac h).symm

end Sorted

/-! ## Insertion -/

section Insert

variable [DecidableEq α] {r p n x : α}

/-- Linking `n`, whose successor is that of `p`, behind `p` keeps every chain. -/
theorem Reach.insert (hn : next n = next p) (hpn : p ≠ n) (h : Reach next r x) :
    Reach (Function.update next p (some n)) r x := by
  have hn' : Function.update next p (some n) n = next p := by
    rw [Function.update_of_ne hpn.symm]
    exact hn
  induction h with
  | refl => exact Reach.refl r
  | @tail y z _ hyz ih =>
    by_cases hy : y = p
    · subst hy
      have hstep : Function.update next y (some n) y = some n := Function.update_self _ _ _
      exact (ih.tail hstep).tail (hn'.trans hyz)
    · refine ih.tail ?_
      rw [Function.update_of_ne hy]
      exact hyz

/-- Linking a new node behind a reached one adds exactly it. -/
theorem reach_insert_iff (hn : next n = next p) (hpn : p ≠ n) (hfresh : ∀ y, next y ≠ some n)
    (hrn : r ≠ n) (hp : Reach next r p) :
    Reach (Function.update next p (some n)) r x ↔ Reach next r x ∨ x = n := by
  constructor
  · intro h
    induction h with
    | refl => exact Or.inl (Reach.refl r)
    | @tail y z _ hyz ih =>
      by_cases hy : y = p
      · subst hy
        rw [Function.update_self] at hyz
        exact Or.inr (Option.some.inj hyz).symm
      · rw [Function.update_of_ne hy] at hyz
        rcases ih with ih | rfl
        · exact Or.inl (ih.tail hyz)
        · exact Or.inl (hp.tail (hn.symm.trans hyz))
  · rintro (h | rfl)
    · exact h.insert hn hpn
    · exact (hp.insert hn hpn).tail (Function.update_self _ _ _)

end Insert

/-! ## Deletion -/

section Delete

variable [DecidableEq α] {lt : α → α → Prop} {r p i x : α}

/-- Linking past a node removes exactly that node. -/
theorem reach_delete_iff (hs : Sorted next lt) (hpi : next p = some i) (hri : r ≠ i)
    (hp : Reach next r p) :
    Reach (Function.update next p (next i)) r x ↔ Reach next r x ∧ x ≠ i := by
  have hpne : p ≠ i := by
    rintro rfl
    exact hs.irrefl _ (hs.link _ _ hpi)
  constructor
  · intro h
    induction h with
    | refl => exact ⟨Reach.refl r, hri⟩
    | @tail y z _ hyz ih =>
      by_cases hy : y = p
      · subst hy
        rw [Function.update_self] at hyz
        refine ⟨(hp.tail hpi).tail hyz, ?_⟩
        rintro rfl
        exact hs.irrefl _ (hs.link _ _ hyz)
      · rw [Function.update_of_ne hy] at hyz
        refine ⟨ih.1.tail hyz, ?_⟩
        rintro rfl
        exact hy (ih.1.pred_unique hs hp hyz hpi)
  · -- a chain through `i` is rerouted at `p`, its one predecessor
    rintro ⟨h, hx⟩
    have key : (x ≠ i → Reach (Function.update next p (next i)) r x)
        ∧ (x = i → Reach (Function.update next p (next i)) r p) := by
      clear hx
      induction h with
      | refl => exact ⟨fun _ => Reach.refl r, fun h => absurd h hri⟩
      | @tail y z hy hyz ih =>
        constructor
        · intro hz
          by_cases hyi : y = i
          · refine (ih.2 hyi).tail ?_
            rw [Function.update_self, ← hyi]
            exact hyz
          · refine (ih.1 hyi).tail ?_
            rw [Function.update_of_ne]
            · exact hyz
            · rintro rfl
              exact hz (Option.some.inj (hyz.symm.trans hpi))
        · rintro rfl
          obtain rfl : y = p := Reach.pred_unique hs hy hp hyz hpi
          exact ih.1 hpne
    exact key.1 hx

/-- Linking past a node keeps every chain to another node, also from nodes that are not
reached from the root. -/
theorem Reach.bypass {next' : α → Option α} {a s : α} (hpi : next p = some i) (hpne : i ≠ p)
    (hnext : ∀ y, next' y = if y = p then next i else next y) (hs : s ≠ i) (h : Reach next a s) :
    Reach next' a s := by
  induction h using Relation.ReflTransGen.head_induction_on with
  | refl => exact Reach.refl s
  | @head y z hyz hzs ih =>
    by_cases hy : y = p
    · subst hy
      obtain rfl : i = z := Option.some.inj (hpi.symm.trans hyz)
      -- behind `i` the chain goes on, as it ends elsewhere
      obtain rfl | ⟨w, hw, hws⟩ := ih.cases_head
      · exact absurd rfl hs
      · rw [hnext, if_neg hpne] at hw
        exact Reach.head ((hnext y).trans ((if_pos rfl).trans hw)) hws
    · exact Reach.head ((hnext y).trans ((if_neg hy).trans hyz)) ih

end Delete

/-! ## Lists of nodes -/

section Links

variable {next' : α → Option α}

/-- The nodes behind `a`, in order, are `xs`. -/
def Links (next : α → Option α) : α → List α → Prop
  | a, [] => next a = none
  | a, b :: bs => next a = some b ∧ Links next b bs

theorem Links.next_eq {a : α} {xs : List α} (h : Links next a xs) : next a = xs.head? := by
  cases xs with
  | nil => exact h
  | cons b bs => exact h.1

/-- There is one list of nodes behind a node. -/
theorem Links.unique {a : α} {xs ys : List α} (h : Links next a xs) (h' : Links next a ys) :
    xs = ys := by
  induction xs generalizing a ys with
  | nil => exact (List.head?_eq_none_iff.mp (h'.next_eq.symm.trans h)).symm
  | cons b bs ih =>
    cases ys with
    | nil => exact absurd (h.1.symm.trans h') (Option.some_ne_none b)
    | cons c cs =>
      obtain rfl : b = c := Option.some.inj (h.1.symm.trans h'.1)
      rw [ih h.2 h'.2]

/-- The nodes of a list are reached. -/
theorem Links.reach {a x : α} {xs : List α} (h : Links next a xs) (hx : x ∈ a :: xs) :
    Reach next a x := by
  induction xs generalizing a with
  | nil =>
    obtain rfl := List.mem_singleton.mp hx
    exact Reach.refl x
  | cons b bs ih =>
    rcases List.mem_cons.mp hx with rfl | hx
    · exact Reach.refl x
    · exact Reach.head h.1 (ih h.2 hx)

/-- Each node of a list is the successor of another one. -/
theorem Links.source {a x : α} {xs : List α} (h : Links next a xs) (hx : x ∈ xs) :
    ∃ y ∈ a :: xs, next y = some x := by
  induction xs generalizing a with
  | nil => cases hx
  | cons b bs ih =>
    rcases List.mem_cons.mp hx with rfl | hx
    · exact ⟨a, List.mem_cons_self, h.1⟩
    · obtain ⟨y, hy, hyx⟩ := ih h.2 hx
      exact ⟨y, List.mem_cons_of_mem a hy, hyx⟩

/-- Nothing else is reached. -/
theorem Links.mem_of_reach {a x : α} {xs : List α} (h : Links next a xs) (hx : Reach next a x) :
    x ∈ a :: xs := by
  induction xs generalizing a with
  | nil =>
    obtain rfl | ⟨c, hc, -⟩ := hx.cases_head
    · exact List.mem_cons_self
    · exact absurd (hc.symm.trans h) (Option.some_ne_none c)
  | cons b bs ih =>
    obtain rfl | ⟨c, hc, hcx⟩ := hx.cases_head
    · exact List.mem_cons_self
    · obtain rfl : b = c := Option.some.inj (h.1.symm.trans hc)
      exact List.mem_cons_of_mem a (ih h.2 hcx)

/-- The nodes behind the last node of a prefix. -/
theorem Links.suffix {a : α} {xs ys : List α} (h : Links next a (xs ++ ys)) :
    Links next (xs.getLastD a) ys := by
  induction xs generalizing a with
  | nil => exact h
  | cons b bs ih =>
    rw [List.getLastD_cons]
    exact ih h.2

/-- Only the successors of the nodes themselves matter. -/
theorem Links.congr {a : α} {xs : List α} (h : Links next a xs)
    (heq : ∀ x ∈ a :: xs, next' x = next x) : Links next' a xs := by
  induction xs generalizing a with
  | nil => exact (heq a List.mem_cons_self).trans h
  | cons b bs ih =>
    refine ⟨(heq a List.mem_cons_self).trans h.1, ih h.2 fun x hx => ?_⟩
    exact heq x (List.mem_cons_of_mem a hx)

/-- The same nodes behind another node. -/
theorem Links.move {a b : α} {xs : List α} (h : Links next a xs) (hb : next' b = xs.head?)
    (heq : ∀ x ∈ xs, next' x = next x) : Links next' b xs := by
  cases xs with
  | nil => exact hb
  | cons x xs =>
    refine ⟨hb, h.2.congr heq⟩

/-- Other nodes behind the last node of a prefix. -/
theorem Links.splice {a : α} {xs ys zs : List α} (h : Links next a (xs ++ ys))
    (hkeep : ∀ x ∈ (a :: xs).dropLast, next' x = next x)
    (hz : Links next' (xs.getLastD a) zs) : Links next' a (xs ++ zs) := by
  induction xs generalizing a with
  | nil => exact hz
  | cons b bs ih =>
    rw [List.getLastD_cons] at hz
    refine ⟨?_, ih h.2 (fun x hx => hkeep x ?_) hz⟩
    · exact (hkeep a (by simp)).trans h.1
    · rw [List.dropLast_cons_of_ne_nil (List.cons_ne_nil b bs)]
      exact List.mem_cons_of_mem a hx

/-- A node before the last one of a prefix is another node. -/
theorem ne_getLastD_of_mem_dropLast {a x : α} {xs : List α} (hnd : (a :: xs).Nodup)
    (hx : x ∈ (a :: xs).dropLast) : x ≠ xs.getLastD a := by
  have hlast : xs.getLastD a = (a :: xs).getLast (List.cons_ne_nil a xs) := by
    rw [List.getLast_eq_getLastD]
  have hsplit := List.dropLast_append_getLast (List.cons_ne_nil a xs)
  rw [← hsplit, List.nodup_append] at hnd
  rintro rfl
  exact hnd.2.2 _ hx _ (List.mem_singleton.mpr rfl) hlast

theorem getLastD_mem (a : α) (xs : List α) : xs.getLastD a ∈ a :: xs := by
  cases xs with
  | nil => simp
  | cons b bs =>
    rw [List.getLastD_cons]
    exact List.mem_cons_of_mem a (by
      rw [← List.getLast_eq_getLastD (List.cons_ne_nil b bs)]
      exact List.getLast_mem _)

/-- The last node of a prefix is not behind it. -/
theorem getLastD_notMem {a : α} {xs ys : List α} (hnd : (a :: (xs ++ ys)).Nodup) :
    xs.getLastD a ∉ ys := by
  rw [← List.cons_append, List.nodup_append] at hnd
  intro hmem
  exact hnd.2.2 _ (getLastD_mem a xs) _ hmem rfl

/-- A new node between a prefix and the rest. -/
theorem Links.insert {a n : α} {xs ys : List α} (h : Links next a (xs ++ ys))
    (hnd : (a :: (xs ++ ys)).Nodup) (hlast : next' (xs.getLastD a) = some n)
    (hn : next' n = ys.head?)
    (hkeep : ∀ x ∈ a :: (xs ++ ys), x ≠ xs.getLastD a → next' x = next x) :
    Links next' a (xs ++ n :: ys) := by
  have hxs : (a :: xs).Nodup := hnd.sublist (List.cons_sublist_cons.mpr (List.sublist_append_left ..))
  refine h.splice (fun x hx => hkeep x ?_ (ne_getLastD_of_mem_dropLast hxs hx)) ⟨hlast, ?_⟩
  · exact List.mem_append_left ys (List.mem_of_mem_dropLast hx)
  · refine h.suffix.move hn fun x hx => hkeep x (by simp [hx]) ?_
    rintro rfl
    exact getLastD_notMem hnd hx

/-- The node behind a prefix goes. -/
theorem Links.delete {a n : α} {xs ys : List α} (h : Links next a (xs ++ n :: ys))
    (hnd : (a :: (xs ++ n :: ys)).Nodup) (hlast : next' (xs.getLastD a) = ys.head?)
    (hkeep : ∀ x ∈ a :: (xs ++ ys), x ≠ xs.getLastD a → next' x = next x) :
    Links next' a (xs ++ ys) := by
  have hxs : (a :: xs).Nodup := hnd.sublist (List.cons_sublist_cons.mpr (List.sublist_append_left ..))
  refine h.splice (fun x hx => hkeep x ?_ (ne_getLastD_of_mem_dropLast hxs hx)) ?_
  · exact List.mem_append_left ys (List.mem_of_mem_dropLast hx)
  · refine h.suffix.2.move hlast fun x hx => hkeep x (by simp [hx]) ?_
    rintro rfl
    exact getLastD_notMem hnd (List.mem_cons_of_mem n hx)

/-- The nodes after an insertion are those before it and the new one. -/
theorem nodup_insert {a n : α} {xs ys : List α} (hnd : (a :: (xs ++ ys)).Nodup)
    (hn : n ∉ a :: (xs ++ ys)) : (a :: (xs ++ n :: ys)).Nodup := by
  have hnd' : (n :: a :: (xs ++ ys)).Nodup := List.nodup_cons.mpr ⟨hn, hnd⟩
  refine (List.Perm.nodup_iff ?_).mp hnd'
  exact (List.Perm.swap _ _ _).trans (List.perm_middle.symm.cons a)

theorem pairwise_insert {R : α → α → Prop} {n : α} {xs ys : List α} (h : (xs ++ ys).Pairwise R)
    (hx : ∀ x ∈ xs, R x n) (hy : ∀ y ∈ ys, R n y) : (xs ++ n :: ys).Pairwise R := by
  rw [List.pairwise_append] at h ⊢
  refine ⟨h.1, List.pairwise_cons.mpr ⟨hy, h.2.1⟩, fun a ha b hb => ?_⟩
  rcases List.mem_cons.mp hb with rfl | hb
  · exact hx a ha
  · exact h.2.2 a ha b hb

theorem mem_insert_iff {a n x : α} {xs ys : List α} :
    x ∈ a :: (xs ++ n :: ys) ↔ x = n ∨ x ∈ a :: (xs ++ ys) := by
  simp only [List.mem_cons, List.mem_append]
  tauto

/-- The last node of a list, or the node before it. -/
theorem getLastD_append {a : α} (xs ys : List α) :
    (xs ++ ys).getLastD a = ys.getLastD (xs.getLastD a) := by
  induction xs generalizing a with
  | nil => rfl
  | cons b xs ih => rw [List.cons_append, List.getLastD_cons, List.getLastD_cons, ih]

/-- The rest of a chain behind the last node of a part of its prefix. -/
theorem Links.rest {a : α} {xs part ys : List α} (h : Links next a (xs ++ ys))
    (hpart : ∀ b ∈ part, b ∈ xs) :
    ∃ back, Links next (part.getLastD a) (back ++ ys) ∧ (∀ b ∈ back, b ∈ xs)
      ∧ xs.getLastD a = back.getLastD (part.getLastD a) := by
  by_cases hnil : part = []
  · rw [hnil]
    exact ⟨xs, h, fun b hb => hb, rfl⟩
  · obtain ⟨front, b, rfl⟩ := (List.eq_nil_or_concat' part).resolve_left hnil
    obtain ⟨us, back, rfl⟩ := List.append_of_mem (hpart b (by simp))
    have hlast : (front ++ [b]).getLastD a = b := List.getLastD_concat
    rw [hlast]
    refine ⟨back, ?_, fun c hc => by simp [hc], ?_⟩
    · rw [List.append_assoc] at h
      exact h.suffix.2
    · rw [getLastD_append, List.getLastD_cons]

/-- Where a measure decreases along the links there are finitely many nodes behind each one, and
none twice. -/
theorem links_of_measure {S : α → Prop} {f : α → ℕ}
    (hS : ∀ a b, S a → next a = some b → S b ∧ f b < f a) {a : α} (ha : S a) :
    ∃ xs, Links next a xs ∧ (a :: xs).Nodup ∧ (∀ b ∈ a :: xs, S b ∧ f b ≤ f a)
      ∧ xs.length ≤ f a := by
  generalize hn : f a = n
  induction n using Nat.strong_induction_on generalizing a with
  | h n ih =>
    cases hnext : next a with
    | none =>
      refine ⟨[], hnext, List.nodup_singleton a, fun b hb => ?_, Nat.zero_le n⟩
      obtain rfl := List.mem_singleton.mp hb
      exact ⟨ha, hn.le⟩
    | some b =>
      obtain ⟨hb, hlt⟩ := hS a b ha hnext
      obtain ⟨xs, hl, hnd, hmem, hlen⟩ := ih (f b) (hn ▸ hlt) hb rfl
      refine ⟨b :: xs, ⟨hnext, hl⟩, List.nodup_cons.mpr ⟨fun hab => ?_, hnd⟩, fun c hc => ?_, ?_⟩
      · exact absurd (hmem a hab).2 (by omega)
      · rcases List.mem_cons.mp hc with rfl | hc
        · exact ⟨ha, hn.le⟩
        · exact ⟨(hmem c hc).1, (hmem c hc).2.trans (by omega)⟩
      · rw [List.length_cons]
        omega

/-- The chain that starts at `o` is `xs`. -/
def Spells (next : α → Option α) : Option α → List α → Prop
  | o, [] => o = none
  | o, x :: xs => o = some x ∧ Spells next (next x) xs

theorem Spells.head_eq {o : Option α} {xs : List α} (h : Spells next o xs) : o = xs.head? := by
  cases xs with
  | nil => exact h
  | cons x xs => exact h.1

theorem Links.spells {a : α} {xs : List α} (h : Links next a xs) : Spells next xs.head? xs := by
  induction xs generalizing a with
  | nil => exact rfl
  | cons x xs ih =>
    refine ⟨rfl, ?_⟩
    rw [h.2.next_eq]
    exact ih h.2

theorem Spells.congr {o : Option α} {xs : List α} (h : Spells next o xs)
    (heq : ∀ x ∈ xs, next' x = next x) : Spells next' o xs := by
  induction xs generalizing o with
  | nil => exact h
  | cons x xs ih =>
    refine ⟨h.1, ?_⟩
    rw [heq x List.mem_cons_self]
    exact ih h.2 fun y hy => heq y (List.mem_cons_of_mem x hy)

/-- A chain goes on behind its last node. -/
theorem Spells.snoc {o : Option α} {x n : α} {xs : List α} (h : Spells next o (x :: xs))
    (hnd : (x :: xs).Nodup) (hn : next' n = none) (hlast : next' (xs.getLastD x) = some n)
    (hkeep : ∀ y ∈ x :: xs, y ≠ xs.getLastD x → next' y = next y) :
    Spells next' o (x :: xs ++ [n]) := by
  induction xs generalizing o x with
  | nil => exact ⟨h.1, hlast, hn⟩
  | cons y ys ih =>
    have hx : next' x = next x := by
      refine hkeep x List.mem_cons_self fun heq => ?_
      rw [List.getLastD_cons] at heq
      exact (List.nodup_cons.mp hnd).1 (heq ▸ getLastD_mem y ys)
    refine ⟨h.1, ?_⟩
    rw [hx]
    rw [List.getLastD_cons] at hlast hkeep
    exact ih h.2 (List.nodup_cons.mp hnd).2 hlast
      fun z hz => hkeep z (List.mem_cons_of_mem x hz)

/-- The nodes of a chain are those that its start reaches. -/
theorem Spells.mem_iff {o : Option α} {xs : List α} (h : Spells next o xs) {y : α} :
    y ∈ xs ↔ ∃ x, o = some x ∧ Reach next x y := by
  induction xs generalizing o with
  | nil =>
    rw [show o = none from h]
    simp
  | cons x xs ih =>
    rw [h.1, List.mem_cons, ih h.2]
    constructor
    · rintro (rfl | ⟨z, hz, hreach⟩)
      · exact ⟨y, rfl, Reach.refl y⟩
      · exact ⟨x, rfl, Reach.head hz hreach⟩
    · rintro ⟨z, hz, hreach⟩
      obtain rfl := Option.some.inj hz
      rcases hreach.cases_head with rfl | ⟨w, hw, hreach⟩
      · exact Or.inl rfl
      · exact Or.inr ⟨w, hw, hreach⟩

end Links

end Chain
