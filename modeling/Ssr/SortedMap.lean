/-
# Sorted finite maps

A finite map from keys to values as a list of pairs, in the order that an injective
`rank` gives to the keys.

* `get`, `put`, `erase` — the operations;
* `split_sorted` — the place of a key in a sorted list;
* what the operations do at that place;
* `get_perm`, `put_perm`, `erase_perm` — the operations up to the order of the pairs;
* `get_put`, `get_erase` — what is there after them;
* `exists_rank` — the keys in use can be ranked by any linear order.

Nothing here refers to a particular program.
-/
import Mathlib.Data.List.Basic
import Mathlib.Logic.Embedding.Basic
import Mathlib.Tactic

namespace SortedMap

variable (rank : ℕ ↪ ℤ)

/-- The keys are strictly increasing. -/
def Sorted (m : List (ℕ × ℕ)) : Prop := m.Pairwise fun p q => rank p.1 < rank q.1

/-- The value of a key. -/
def get (m : List (ℕ × ℕ)) (k : ℕ) : Option ℕ := (m.find? fun p => p.1 = k).map (·.2)

/-- Set the value of a key. -/
def put (m : List (ℕ × ℕ)) (k v : ℕ) : List (ℕ × ℕ) :=
  m.filter (fun p => rank p.1 < rank k) ++ (k, v) :: m.filter fun p => rank k < rank p.1

/-- Remove a key. -/
def erase (m : List (ℕ × ℕ)) (k : ℕ) : List (ℕ × ℕ) := m.filter fun p => p.1 ≠ k

/-- The place of a key in a sorted list: behind the smaller keys, and either there or not. -/
theorem split_sorted {α : Type*} (key : α → ℕ) (k : ℕ) {xs : List α}
    (hs : xs.Pairwise fun a b => rank (key a) < rank (key b)) :
    ∃ lo hi, (∀ a ∈ lo, rank (key a) < rank k) ∧ (∀ a ∈ hi, rank k < rank (key a)) ∧
      (xs = lo ++ hi ∨ ∃ x, key x = k ∧ xs = lo ++ x :: hi) := by
  induction xs with
  | nil => exact ⟨[], [], by simp, by simp, Or.inl rfl⟩
  | cons a xs ih =>
    obtain ⟨ha, hxs⟩ := List.pairwise_cons.mp hs
    rcases lt_trichotomy (rank (key a)) (rank k) with hlt | heq | hgt
    · obtain ⟨lo, hi, hlo, hhi, hsplit⟩ := ih hxs
      refine ⟨a :: lo, hi, ?_, hhi, ?_⟩
      · intro b hb
        rcases List.mem_cons.mp hb with rfl | hb
        · exact hlt
        · exact hlo b hb
      · rcases hsplit with rfl | ⟨x, hx, rfl⟩
        · exact Or.inl rfl
        · exact Or.inr ⟨x, hx, rfl⟩
    · have hk : key a = k := rank.injective heq
      exact ⟨[], xs, by simp, fun b hb => hk ▸ ha b hb, Or.inr ⟨a, hk, rfl⟩⟩
    · refine ⟨[], a :: xs, by simp, fun b hb => ?_, Or.inl rfl⟩
      rcases List.mem_cons.mp hb with rfl | hb
      · exact hgt
      · exact hgt.trans (ha b hb)

section Place

variable {rank} {lo hi : List (ℕ × ℕ)} {k : ℕ}

theorem ne_of_lo (hlo : ∀ p ∈ lo, rank p.1 < rank k) {p : ℕ × ℕ} (hp : p ∈ lo) : p.1 ≠ k :=
  fun heq => lt_irrefl _ (heq ▸ hlo p hp)

theorem ne_of_hi (hhi : ∀ p ∈ hi, rank k < rank p.1) {p : ℕ × ℕ} (hp : p ∈ hi) : p.1 ≠ k :=
  fun heq => lt_irrefl _ (heq ▸ hhi p hp)

theorem get_absent (hlo : ∀ p ∈ lo, rank p.1 < rank k) (hhi : ∀ p ∈ hi, rank k < rank p.1) :
    get (lo ++ hi) k = none := by
  unfold get
  rw [Option.map_eq_none_iff, List.find?_eq_none]
  intro p hp
  rcases List.mem_append.mp hp with hp | hp
  · simpa using ne_of_lo hlo hp
  · simpa using ne_of_hi hhi hp

theorem get_present (hlo : ∀ p ∈ lo, rank p.1 < rank k) (v : ℕ) :
    get (lo ++ (k, v) :: hi) k = some v := by
  have hnone : lo.find? (fun p => decide (p.1 = k)) = none := by
    rw [List.find?_eq_none]
    intro p hp
    simpa using ne_of_lo hlo hp
  simp [get, List.find?_append, hnone]

theorem put_absent (hlo : ∀ p ∈ lo, rank p.1 < rank k) (hhi : ∀ p ∈ hi, rank k < rank p.1) (v : ℕ) :
    put rank (lo ++ hi) k v = lo ++ (k, v) :: hi := by
  have h₁ : lo.filter (fun p => decide (rank p.1 < rank k)) = lo :=
    List.filter_eq_self.mpr fun p hp => by simpa using hlo p hp
  have h₂ : hi.filter (fun p => decide (rank p.1 < rank k)) = [] :=
    List.filter_eq_nil_iff.mpr fun p hp => by simpa using (hhi p hp).le
  have h₃ : lo.filter (fun p => decide (rank k < rank p.1)) = [] :=
    List.filter_eq_nil_iff.mpr fun p hp => by simpa using (hlo p hp).le
  have h₄ : hi.filter (fun p => decide (rank k < rank p.1)) = hi :=
    List.filter_eq_self.mpr fun p hp => by simpa using hhi p hp
  simp only [put, List.filter_append, h₁, h₂, h₃, h₄, List.append_nil, List.nil_append]

theorem put_present (hlo : ∀ p ∈ lo, rank p.1 < rank k) (hhi : ∀ p ∈ hi, rank k < rank p.1)
    (u v : ℕ) : put rank (lo ++ (k, u) :: hi) k v = lo ++ (k, v) :: hi := by
  rw [← put_absent hlo hhi v]
  simp [put, List.filter_append]

theorem erase_absent (hlo : ∀ p ∈ lo, rank p.1 < rank k) (hhi : ∀ p ∈ hi, rank k < rank p.1) :
    erase (lo ++ hi) k = lo ++ hi := by
  apply List.filter_eq_self.mpr
  intro p hp
  rcases List.mem_append.mp hp with hp | hp
  · simpa using ne_of_lo hlo hp
  · simpa using ne_of_hi hhi hp

theorem erase_present (hlo : ∀ p ∈ lo, rank p.1 < rank k) (hhi : ∀ p ∈ hi, rank k < rank p.1)
    (v : ℕ) : erase (lo ++ (k, v) :: hi) k = lo ++ hi := by
  rw [← erase_absent hlo hhi]
  simp [erase, List.filter_append]

end Place

section Operations

variable {rank} {m m' : List (ℕ × ℕ)} {k v : ℕ}

theorem mem_put {p : ℕ × ℕ} (hp : p ∈ put rank m k v) : p ∈ m ∨ p = (k, v) := by
  simp only [put, List.mem_append, List.mem_cons, List.mem_filter] at hp
  tauto

theorem Sorted.erase (hs : Sorted rank m) : Sorted rank (erase m k) :=
  hs.sublist List.filter_sublist

theorem Sorted.put (hs : Sorted rank m) : Sorted rank (put rank m k v) := by
  refine List.pairwise_append.mpr ⟨hs.sublist List.filter_sublist,
    List.pairwise_cons.mpr ⟨?_, hs.sublist List.filter_sublist⟩, ?_⟩
  · intro p hp
    simpa using (List.mem_filter.mp hp).2
  · intro p hp q hq
    have hpk : rank p.1 < rank k := by simpa using (List.mem_filter.mp hp).2
    rcases List.mem_cons.mp hq with rfl | hq
    · exact hpk
    · exact hpk.trans (by simpa using (List.mem_filter.mp hq).2)

/-- A value that is there is put in vain. -/
theorem Sorted.put_self (hs : Sorted rank m) (hget : get m k = some v) :
    SortedMap.put rank m k v = m := by
  obtain ⟨lo, hi, hlo, hhi, rfl | ⟨⟨k', u⟩, rfl, rfl⟩⟩ := split_sorted rank Prod.fst k hs
  · rw [get_absent hlo hhi] at hget
    cases hget
  · rw [get_present hlo] at hget
    obtain rfl := Option.some.inj hget
    exact put_present hlo hhi u u

theorem Sorted.nodup (hs : Sorted rank m) : (m.map (·.1)).Nodup := by
  refine List.pairwise_map.mpr (hs.imp fun {p q} hpq heq => ?_)
  exact absurd hpq (by rw [heq]; exact lt_irrefl _)

/-- Without equal keys the value of a key is what a pair says. -/
theorem get_eq_some_iff (hm : (m.map (·.1)).Nodup) : get m k = some v ↔ (k, v) ∈ m := by
  induction m with
  | nil => simp [get]
  | cons p m ih =>
    obtain ⟨hp, hm⟩ := List.nodup_cons.mp hm
    by_cases hk : p.1 = k
    · have hmem : (k, v) ∉ m := fun hmem => hp (List.mem_map.mpr ⟨(k, v), hmem, hk.symm⟩)
      simp only [get, List.find?_cons, hk, decide_true, Option.map_some, Option.some.injEq,
        List.mem_cons, hmem, or_false]
      constructor
      · rintro rfl
        exact Prod.ext hk.symm rfl
      · rintro rfl
        rfl
    · have hne : (k, v) ≠ p := fun heq => hk (congrArg Prod.fst heq).symm
      have htail : get (p :: m) k = get m k := by
        simp only [get, List.find?_cons, hk, decide_false]
      rw [htail, ih hm, List.mem_cons, or_iff_right hne]

theorem get_perm (hm : (m.map (·.1)).Nodup) (hp : m.Perm m') (k : ℕ) : get m k = get m' k := by
  apply Option.ext
  intro v
  rw [get_eq_some_iff hm, get_eq_some_iff ((hp.map _).nodup_iff.mp hm)]
  exact hp.mem_iff

theorem erase_perm (hp : m.Perm m') : (erase m k).Perm (erase m' k) := hp.filter _

theorem put_perm (rank : ℕ ↪ ℤ) (m : List (ℕ × ℕ)) (k v : ℕ) :
    (SortedMap.put rank m k v).Perm ((k, v) :: SortedMap.erase m k) := by
  refine List.perm_middle.trans (List.Perm.cons _ ?_)
  have hlow : m.filter (fun p => decide (rank p.1 < rank k))
      = (SortedMap.erase m k).filter fun p => decide (rank p.1 < rank k) := by
    rw [SortedMap.erase, List.filter_filter]
    apply List.filter_congr
    intro p _
    by_cases hk : p.1 = k
    · simp [hk]
    · simp [hk]
  have hhigh : m.filter (fun p => decide (rank k < rank p.1))
      = (SortedMap.erase m k).filter fun p => !decide (rank p.1 < rank k) := by
    rw [SortedMap.erase, List.filter_filter]
    apply List.filter_congr
    intro p _
    have hrank : rank p.1 = rank k ↔ p.1 = k := rank.injective.eq_iff
    by_cases hk : p.1 = k
    · simp [hk]
    · have hne : rank p.1 ≠ rank k := fun h => hk (hrank.mp h)
      by_cases hlt : rank p.1 < rank k
      · simp [hk, hlt, hlt.le]
      · have hgt : rank k < rank p.1 := by omega
        simp [hk, hlt, hgt]
  rw [hlow, hhigh]
  exact List.filter_append_perm ..

/-- What is there after a key was removed. -/
theorem get_erase (m : List (ℕ × ℕ)) (k k' : ℕ) :
    get (SortedMap.erase m k) k' = if k' = k then none else get m k' := by
  rw [get, SortedMap.erase, List.find?_filter]
  split_ifs with h
  · subst h
    rw [Option.map_eq_none_iff, List.find?_eq_none]
    simp
  · rw [get]
    congr 2
    funext p
    by_cases hp : p.1 = k'
    · simp [hp, h]
    · simp [hp]

/-- What is there after a key was put. -/
theorem Sorted.get_put (hs : Sorted rank m) (k' : ℕ) :
    get (SortedMap.put rank m k v) k' = if k' = k then some v else get m k' := by
  rw [get_perm hs.put.nodup (put_perm rank m k v) k']
  by_cases h : k' = k
  · subst h
    simp [get]
  · have hne : ¬ k = k' := fun heq => h heq.symm
    have hrest : get ((k, v) :: SortedMap.erase m k) k' = get (SortedMap.erase m k) k' := by
      simp [get, hne]
    rw [hrest, get_erase, if_neg h, if_neg h]

/-- Keys under other names. -/
theorem get_map {f : ℕ → ℕ} (hf : Function.Injective f) (m : List (ℕ × ℕ)) (k : ℕ) :
    get (m.map fun p => (f p.1, p.2)) (f k) = get m k := by
  rw [get, get, List.find?_map, Option.map_map]
  have hcomp : ((fun p : ℕ × ℕ => decide (p.1 = f k)) ∘ fun p : ℕ × ℕ => (f p.1, p.2))
      = fun p => decide (p.1 = k) := by
    funext p
    simp [hf.eq_iff]
  rw [hcomp]
  rfl

end Operations

/-! ## Ranks -/

/-- Finitely many keys in any linear order have ranks. -/
theorem exists_rank {α : Type*} [LinearOrder α] (f : ℕ → α) (keys : Finset ℕ)
    (hinj : Set.InjOn f keys) :
    ∃ rank : ℕ ↪ ℤ, ∀ x ∈ keys, ∀ y ∈ keys, rank x < rank y ↔ f x < f y := by
  classical
  -- the number of the smaller keys; the others get negative ranks
  let place : ℕ → ℤ := fun x => ((keys.filter fun y => f y < f x).card : ℤ)
  have hlt : ∀ x ∈ keys, ∀ y, f x < f y → place x < place y := by
    intro x hx y hxy
    have hsub : keys.filter (fun z => f z < f x) ⊂ keys.filter fun z => f z < f y := by
      refine (Finset.ssubset_iff_of_subset ?_).mpr ⟨x, ?_, ?_⟩
      · exact fun z hz => Finset.mem_filter.mpr
          ⟨(Finset.mem_filter.mp hz).1, (Finset.mem_filter.mp hz).2.trans hxy⟩
      · exact Finset.mem_filter.mpr ⟨hx, hxy⟩
      · exact fun h => lt_irrefl _ (Finset.mem_filter.mp h).2
    exact Int.ofNat_lt.mpr (Finset.card_lt_card hsub)
  have hiff : ∀ x ∈ keys, ∀ y ∈ keys, place x < place y ↔ f x < f y := by
    intro x hx y hy
    refine ⟨fun h => ?_, hlt x hx y⟩
    rcases lt_trichotomy (f x) (f y) with h' | h' | h'
    · exact h'
    · exact absurd h (by simp only [place, h', lt_irrefl, not_false_eq_true])
    · exact absurd (hlt y hy x h') (lt_asymm h)
  refine ⟨⟨fun x => if x ∈ keys then place x else - (x : ℤ) - 1, ?_⟩, fun x hx y hy => ?_⟩
  · intro x y heq
    have hpos : ∀ z, 0 ≤ place z := fun z => Int.natCast_nonneg _
    have hx₀ := hpos x
    have hy₀ := hpos y
    simp only at heq
    split_ifs at heq with hx hy hy
    · rcases lt_trichotomy (f x) (f y) with h | h | h
      · exact absurd heq (hlt x hx y h).ne
      · exact hinj hx hy h
      · exact absurd heq (hlt y hy x h).ne'
    · omega
    · omega
    · omega
  · show (if x ∈ keys then place x else _) < (if y ∈ keys then place y else _) ↔ _
    rw [if_pos hx, if_pos hy]
    exact hiff x hx y hy

end SortedMap
