/-
# Elements in places

Every place has a list of elements, and an element is in one place at most, and there
once.

* `Exclusive` — this;
* `moveFront`, `moveBack` — an element goes from one place to another;
* `Exclusive.moveFront`, `Exclusive.moveBack`, `Exclusive.add` — what it keeps.

Nothing here refers to a particular program.
-/
import Mathlib.Data.List.Nodup
import Mathlib.Tactic

namespace Placement

variable {π α : Type*}

/-- An element is in one place at most, and there once. -/
structure Exclusive (L : π → List α) : Prop where
  nodup : ∀ p, (L p).Nodup
  unique : ∀ p q x, x ∈ L p → x ∈ L q → p = q

/-- Nothing is anywhere. -/
theorem exclusive_nil : Exclusive fun _ : π => ([] : List α) :=
  ⟨fun _ => List.nodup_nil, fun _ _ _ h => absurd h List.not_mem_nil⟩

/-- The elements of a place are its old ones and new ones that were nowhere. -/
theorem Exclusive.add {L : π → List α} (h : Exclusive L) (L' : π → List α) (xs : List α) {q : π}
    (hnd : xs.Nodup) (hnew : ∀ x ∈ xs, ∀ r, x ∉ L r) (hq : (L' q).Perm (xs ++ L q))
    (hrest : ∀ r, r ≠ q → L' r = L r) :
    Exclusive L' ∧ ∀ y, (∃ r, y ∈ L' r) ↔ y ∈ xs ∨ ∃ r, y ∈ L r := by
  have hmem : ∀ r y, y ∈ L' r ↔ (r = q ∧ y ∈ xs) ∨ y ∈ L r := by
    intro r y
    by_cases hr : r = q
    · rw [hr, hq.mem_iff, List.mem_append]
      tauto
    · rw [hrest r hr]
      tauto
  refine ⟨⟨fun r => ?_, ?_⟩, ?_⟩
  · by_cases hr : r = q
    · rw [hr, hq.nodup_iff]
      refine List.nodup_append'.mpr ⟨hnd, h.nodup q, ?_⟩
      intro x hx hx'
      exact hnew x hx q hx'
    · rw [hrest r hr]
      exact h.nodup r
  · intro r r' y hy hy'
    rw [hmem] at hy hy'
    rcases hy with ⟨rfl, hy⟩ | hy
    · rcases hy' with ⟨rfl, -⟩ | hy'
      · rfl
      · exact absurd hy' (hnew y hy r')
    · rcases hy' with ⟨rfl, hy'⟩ | hy'
      · exact absurd hy (hnew y hy' r)
      · exact h.unique r r' y hy hy'
  · intro y
    simp only [hmem, exists_or]
    constructor
    · rintro (⟨r, -, hy⟩ | hy)
      · exact Or.inl hy
      · exact Or.inr hy
    · rintro (hy | hy)
      · exact Or.inl ⟨q, rfl, hy⟩
      · exact Or.inr hy

/-- An element leaves a place. -/
theorem Exclusive.leave {L : π → List α} (h : Exclusive L) (L' : π → List α) {p : π} {x : α}
    (hp : (L p).Perm (x :: L' p)) (hrest : ∀ r, r ≠ p → L' r = L r) :
    Exclusive L' ∧ ∀ y, (∃ r, y ∈ L r) ↔ y = x ∨ ∃ r, y ∈ L' r := by
  have hsub : ∀ r y, y ∈ L' r → y ∈ L r := by
    intro r y hy
    by_cases hr : r = p
    · subst hr
      exact hp.mem_iff.mpr (List.mem_cons_of_mem x hy)
    · rwa [← hrest r hr]
  refine ⟨⟨fun r => ?_, fun r r' y hy hy' => h.unique r r' y (hsub r y hy) (hsub r' y hy')⟩, ?_⟩
  · by_cases hr : r = p
    · subst hr
      exact (List.nodup_cons.mp (hp.nodup_iff.mp (h.nodup r))).2
    · rw [hrest r hr]
      exact h.nodup r
  · intro y
    constructor
    · rintro ⟨r, hy⟩
      by_cases hr : r = p
      · subst hr
        rcases List.mem_cons.mp (hp.mem_iff.mp hy) with rfl | hy
        · exact Or.inl rfl
        · exact Or.inr ⟨r, hy⟩
      · exact Or.inr ⟨r, by rwa [hrest r hr]⟩
    · rintro (rfl | ⟨r, hy⟩)
      · exact ⟨p, hp.mem_iff.mpr List.mem_cons_self⟩
      · exact ⟨r, hsub r y hy⟩

section Move

variable [DecidableEq π] [DecidableEq α]

/-- Element `x` goes from `p` to the front of `q`. -/
def moveFront (L : π → List α) (p q : π) (x : α) : π → List α :=
  Function.update (Function.update L p ((L p).erase x)) q (x :: L q)

/-- Element `x` goes from `p` to the back of `q`. -/
def moveBack (L : π → List α) (p q : π) (x : α) : π → List α :=
  Function.update (Function.update L p ((L p).erase x)) q (L q ++ [x])

variable {L : π → List α} {p q r : π} {x : α}

theorem moveFront_to : moveFront L p q x q = x :: L q := Function.update_self ..

theorem moveFront_from (h : p ≠ q) : moveFront L p q x p = (L p).erase x :=
  (Function.update_of_ne h ..).trans (Function.update_self ..)

theorem moveFront_of_ne (hp : r ≠ p) (hq : r ≠ q) : moveFront L p q x r = L r :=
  (Function.update_of_ne hq ..).trans (Function.update_of_ne hp ..)

theorem moveBack_to : moveBack L p q x q = L q ++ [x] := Function.update_self ..

theorem moveBack_from (h : p ≠ q) : moveBack L p q x p = (L p).erase x :=
  (Function.update_of_ne h ..).trans (Function.update_self ..)

theorem moveBack_of_ne (hp : r ≠ p) (hq : r ≠ q) : moveBack L p q x r = L r :=
  (Function.update_of_ne hq ..).trans (Function.update_of_ne hp ..)

/-- An element that goes to another place. -/
theorem Exclusive.move {L' : π → List α} (h : Exclusive L) (hpq : p ≠ q) (hx : x ∈ L p)
    (hp : L' p = (L p).erase x) (hq : (L' q).Perm (x :: L q))
    (hrest : ∀ r, r ≠ p → r ≠ q → L' r = L r) :
    Exclusive L' ∧ ∀ y, (∃ r, y ∈ L' r) ↔ ∃ r, y ∈ L r := by
  have hmid : ∀ r, r ≠ p → Function.update L p ((L p).erase x) r = L r :=
    fun r hr => Function.update_of_ne hr ..
  have hmidp : Function.update L p ((L p).erase x) p = (L p).erase x := Function.update_self ..
  obtain ⟨hleft, hmem⟩ := h.leave (Function.update L p ((L p).erase x))
    (by rw [hmidp]; exact List.perm_cons_erase hx) hmid
  have hgone : ∀ r, x ∉ Function.update L p ((L p).erase x) r := by
    intro r hr
    by_cases hrp : r = p
    · subst hrp
      rw [hmidp] at hr
      exact (h.nodup r).not_mem_erase hr
    · rw [hmid r hrp] at hr
      exact hrp (h.unique r p x hr hx)
  obtain ⟨hdone, hmem'⟩ := hleft.add (q := q) L' [x] (List.nodup_singleton x)
    (fun y hy r => by rw [List.mem_singleton.mp hy]; exact hgone r)
    (by rw [hmid q hpq.symm]; exact hq) (fun r hr => by
      by_cases hrp : r = p
      · subst hrp
        rw [hp, hmidp]
      · rw [hrest r hrp hr, hmid r hrp])
  refine ⟨hdone, fun y => ?_⟩
  rw [hmem', hmem, List.mem_singleton]

theorem Exclusive.moveFront (h : Exclusive L) (hpq : p ≠ q) (hx : x ∈ L p) :
    Exclusive (moveFront L p q x)
      ∧ ∀ y, (∃ r, y ∈ Placement.moveFront L p q x r) ↔ ∃ r, y ∈ L r :=
  h.move hpq hx (moveFront_from hpq) (by rw [moveFront_to]) fun _ => moveFront_of_ne

theorem Exclusive.moveBack (h : Exclusive L) (hpq : p ≠ q) (hx : x ∈ L p) :
    Exclusive (moveBack L p q x)
      ∧ ∀ y, (∃ r, y ∈ Placement.moveBack L p q x r) ↔ ∃ r, y ∈ L r :=
  h.move hpq hx (moveBack_from hpq)
    (by rw [moveBack_to]; exact List.perm_append_singleton ..) fun _ => moveBack_of_ne

end Move

end Placement
