/-
# One key in a chain of tables

A store that grows by moving its contents, one cell at a time, from a table to the next
one has a chain of tables at any moment, and a key may have left traces in each of them.
The traces of one key are a *column*: a cell for every table.  This file says which
columns can occur (`Ok`), what the store means by a column (`value`), and that the moves
of such a store keep both, except for the one that writes.

* A reader starts at table `b` and goes on where the table has no room for the key or
  has given the key away.
* A copier goes on in fewer cases: a key that was given away without a value has not
  been copied any further.

Nothing here refers to a particular program.
-/
import Mathlib.Logic.Function.Basic
import Mathlib.Tactic

namespace Migration

variable {α : Type*}

/-- What a table has for a key: no room for it; room, but not the key; the key without a
value; a value; a removed value; a value that is being moved to the next table; nothing
any more, the value having been moved; nothing any more, the value having been removed
before it was moved. -/
inductive Cell (α : Type*) where
  | full
  | vacant
  | blank
  | live (v : α)
  | tomb
  | moving (v : α)
  | copied
  | buried
  deriving DecidableEq, Repr

namespace Cell

/-- What a reader makes of a cell; `none` when it goes on to the next table. -/
def read : Cell α → Option (Option α)
  | full | copied | buried => none
  | vacant | blank | tomb => some none
  | live v | moving v => some (some v)

/-- The key is in the table. -/
def Installed : Cell α → Prop
  | full | vacant => False
  | _ => True

/-- The cell takes no value any more. -/
def Tagged : Cell α → Prop
  | moving _ | copied | buried => True
  | _ => False

/-- The cell was given a value at some time, and has not been copied. -/
def Valued : Cell α → Prop
  | live _ | tomb | moving _ | buried => True
  | _ => False

/-- A copier goes on to the next table. -/
def Skipped : Cell α → Prop
  | full | copied => True
  | _ => False

/-- A writer goes on to the next table. -/
def Passed : Cell α → Prop
  | full | copied | buried => True
  | _ => False

/-- A cell that takes a value. -/
def Open : Cell α → Prop
  | blank | live _ | tomb => True
  | _ => False

/-- A cell that a copy skips is passed by readers. -/
theorem Skipped.passed {c : Cell α} (h : c.Skipped) : c.Passed := by
  cases c <;> trivial

/-- A cell that is passed is not read. -/
theorem Passed.read_eq {c : Cell α} (h : c.Passed) : c.read = none := by
  cases c <;> first | rfl | exact h.elim

/-- A cell that is not read is passed. -/
theorem passed_of_read {c : Cell α} (h : c.read = none) : c.Passed := by
  cases c <;> trivial

/-- It is full, or tagged. -/
theorem Passed.full_or_tagged {c : Cell α} (h : c.Passed) : c = full ∨ c.Tagged := by
  cases c <;> first | exact h.elim | exact Or.inl rfl | exact Or.inr trivial

/-- A cell that is open is neither. -/
theorem Open.not_full_or_tagged {c : Cell α} (h : c.Open) : ¬ (c = full ∨ c.Tagged) := by
  rintro (rfl | ht)
  · exact h
  · cases c <;> first | exact h.elim | exact ht.elim

end Cell

open Cell

/-! ## The value of a column -/

/-- What a reader finds in `n` tables, the first of which is `i`. -/
def readFrom (col : ℕ → Cell α) : ℕ → ℕ → Option α
  | 0, _ => none
  | n + 1, i =>
    match (col i).read with
    | some r => r
    | none => readFrom col n (i + 1)

/-- The value of a column with tables `b`, …, `len - 1`. -/
def value (col : ℕ → Cell α) (b len : ℕ) : Option α := readFrom col (len - b) b

section Value

variable {col col' : ℕ → Cell α} {b i len : ℕ}

/-- There is nothing behind the last table. -/
theorem value_of_le (h : len ≤ i) : value col i len = none := by
  unfold value
  rw [Nat.sub_eq_zero_of_le h]
  rfl

/-- A cell that is read. -/
theorem value_of_read {r : Option α} (hi : i < len) (h : (col i).read = some r) :
    value col i len = r := by
  unfold value
  obtain ⟨n, hn⟩ : ∃ n, len - i = n + 1 := ⟨len - i - 1, by omega⟩
  rw [hn, readFrom, h]

/-- A cell that is passed. -/
theorem value_of_read_none (hi : i < len) (h : (col i).read = none) :
    value col i len = value col (i + 1) len := by
  unfold value
  obtain ⟨n, hn⟩ : ∃ n, len - i = n + 1 := ⟨len - i - 1, by omega⟩
  rw [hn, readFrom, h, show len - (i + 1) = n by omega]

/-- A reader gets past the cells that are passed. -/
theorem value_of_passed (hbi : b ≤ i) (hi : i ≤ len)
    (h : ∀ m, b ≤ m → m < i → (col m).Passed) : value col b len = value col i len := by
  induction i, hbi using Nat.le_induction with
  | base => rfl
  | succ i hbi ih =>
    rw [ih (by omega) fun m hm hlt => h m hm (by omega)]
    exact value_of_read_none hi (h i hbi (Nat.lt_succ_self i)).read_eq

/-- The value depends on the cells from `b` on only. -/
theorem value_congr (h : ∀ m, b ≤ m → m < len → col' m = col m) :
    value col' b len = value col b len := by
  unfold value
  generalize hn : len - b = n
  induction n generalizing b with
  | zero => rfl
  | succ n ih =>
    rw [readFrom, readFrom, h b le_rfl (by omega), ih (fun m hm => h m (by omega)) (by omega)]

/-- A change from table `i` on. -/
theorem value_congr_below (hbi : b ≤ i) (hi : i ≤ len) (h : ∀ m, b ≤ m → m < i → col' m = col m)
    (hv : value col' i len = value col i len) : value col' b len = value col b len := by
  revert h
  induction hbi using Nat.decreasingInduction with
  | self => exact fun _ => hv
  | of_succ b hlt ih =>
    intro h
    have hb : col' b = col b := h b le_rfl hlt
    have hrest := ih fun m hm hlt' => h m (by omega) hlt'
    rcases hread : (col b).read with _ | r
    · rw [value_of_read_none (by omega) (hb ▸ hread), value_of_read_none (by omega) hread, hrest]
    · rw [value_of_read (by omega) (hb ▸ hread), value_of_read (by omega) hread]

/-- A table without the key behind the last one changes nothing. -/
theorem value_append (hsame : ∀ m, m ≠ len → col' m = col m) (hb : b ≤ len)
    (hc : col' len = vacant) : value col' b (len + 1) = value col b len := by
  induction hb using Nat.decreasingInduction with
  | self =>
    rw [value_of_le le_rfl]
    exact value_of_read (Nat.lt_succ_self _) (by rw [hc]; rfl)
  | of_succ b hlt ih =>
    have hb : col' b = col b := hsame b hlt.ne
    rcases hread : (col b).read with _ | r
    · rw [value_of_read_none (by omega) (hb ▸ hread), value_of_read_none hlt hread, ih]
    · rw [value_of_read (by omega) (hb ▸ hread), value_of_read hlt hread]

/-- A key that is in no table has no value. -/
theorem value_of_uninstalled (h : ∀ m, i ≤ m → m < len → ¬ (col m).Installed) :
    value col i len = none := by
  unfold value
  generalize hn : len - i = n
  induction n generalizing i with
  | zero => rfl
  | succ n ih =>
    rw [readFrom]
    have hnot := h i le_rfl (by omega)
    rcases hc : col i <;> rw [hc] at hnot <;> first | exact absurd trivial hnot | skip
    · exact ih (fun m hm => h m (by omega)) (by omega)
    · rfl

/-- Where a value is found. -/
theorem exists_of_value {v : α} (h : value col i len = some v) :
    ∃ j, i ≤ j ∧ j < len ∧ (col j).read = some (some v) ∧ ∀ m, i ≤ m → m < j → (col m).Passed := by
  unfold value at h
  generalize hn : len - i = n at h
  induction n generalizing i with
  | zero => cases h
  | succ n ih =>
    rw [readFrom] at h
    split at h
    · rename_i r hread
      subst h
      exact ⟨i, le_rfl, by omega, hread, fun m hm hlt => absurd hm (not_le.mpr hlt)⟩
    · rename_i hread
      obtain ⟨j, hij, hj, hv, hpass⟩ := ih (by omega) h
      refine ⟨j, by omega, hj, hv, fun m hm hlt => ?_⟩
      rcases Nat.eq_or_lt_of_le hm with rfl | him
      · exact passed_of_read hread
      · exact hpass m him hlt

end Value

/-! ## The columns that occur -/

section Columns

variable (col : ℕ → Cell α) (i len : ℕ)

/-- The first table that a copier does not skip, and what it finds there. -/
def Reaches (P : Cell α → Prop) : Prop :=
  ∃ j, i ≤ j ∧ j < len ∧ P (col j) ∧ ∀ m, i ≤ m → m < j → (col m).Skipped

/-- The value is yet to come. -/
def Waiting : Prop :=
  (∀ m, i ≤ m → m < len → (col m).Skipped)
    ∨ Reaches col i len fun c => c = vacant ∨ c = blank

/-- The value is there. -/
def Arrived (v : α) : Prop := Reaches col i len fun c => c = live v ∨ c = moving v

/-- A value has come at some time. -/
def Moved : Prop := Reaches col i len Valued

/-- What a copier of `v` may find. -/
def Settled (v : α) : Prop := Waiting col i len ∨ Arrived col i len v

/-- The columns that occur.  A table that can still take a value for the key is the last
one that has the key; what is being moved has not arrived, or it has and is the same. -/
structure Ok (b : ℕ) : Prop where
  behind : ∀ i j, b ≤ i → i < j → j < len → (col j).Installed → col i = full ∨ (col i).Tagged
  settled : ∀ i v, b ≤ i → i < len → col i = .moving v →
    Settled col (i + 1) len v

end Columns

section Lemmas

variable {col col' : ℕ → Cell α} {b i j len : ℕ} {v : α}

/-- Columns that are the same. -/
theorem Reaches.congr {P : Cell α → Prop} (hsame : ∀ m, i ≤ m → m < len → col' m = col m)
    (h : Reaches col i len P) : Reaches col' i len P := by
  obtain ⟨j, hij, hj, hP, hskip⟩ := h
  refine ⟨j, hij, hj, ?_, fun m hm hlt => ?_⟩
  · rw [hsame j hij hj]
    exact hP
  · rw [hsame m hm (hlt.trans hj)]
    exact hskip m hm hlt

/-- Columns that are the same. -/
theorem Waiting.congr (hsame : ∀ m, i ≤ m → m < len → col' m = col m)
    (h : Waiting col i len) : Waiting col' i len := by
  refine h.imp (fun h m hm hlt => ?_) (Reaches.congr hsame)
  rw [hsame m hm hlt]
  exact h m hm hlt

/-- Columns that are the same. -/
theorem Settled.congr (hsame : ∀ m, i ≤ m → m < len → col' m = col m)
    (h : Settled col i len v) : Settled col' i len v :=
  h.imp (Waiting.congr hsame) (Reaches.congr hsame)

/-- A copier skips a table. -/
theorem Reaches.skip {P : Cell α → Prop} (hi : (col i).Skipped) (h : Reaches col (i + 1) len P) :
    Reaches col i len P := by
  obtain ⟨j, hij, hj, hP, hskip⟩ := h
  refine ⟨j, by omega, hj, hP, fun m hm hlt => ?_⟩
  rcases Nat.eq_or_lt_of_le hm with rfl | hm
  · exact hi
  · exact hskip m hm hlt

/-- Cells before it that are skipped. -/
theorem Reaches.of_skip {P : Cell α → Prop} (hij : i ≤ j) (h : Reaches col j len P)
    (hskip : ∀ m, i ≤ m → m < j → (col m).Skipped) : Reaches col i len P := by
  obtain ⟨k, hjk, hk, hP, hrest⟩ := h
  refine ⟨k, hij.trans hjk, hk, hP, fun m hm hlt => ?_⟩
  rcases Nat.lt_or_ge m j with hmj | hmj
  · exact hskip m hm hmj
  · exact hrest m hmj hlt

/-- The tables from `i` on have room, or none; the key is in none of them. -/
theorem Waiting.of_uninstalled (h : ∀ m, i ≤ m → m < len → ¬ (col m).Installed) :
    Waiting col i len := by
  generalize hn : len - i = n
  induction n generalizing i with
  | zero => exact Or.inl fun m hm hlt => by omega
  | succ n ih =>
    have hnot := h i le_rfl (by omega)
    rcases hc : col i <;> rw [hc] at hnot <;> first | exact absurd trivial hnot | skip
    · rcases ih (i := i + 1) (fun m hm => h m (by omega)) (by omega) with hall | hr
      · refine Or.inl fun m hm hlt => ?_
        rcases Nat.eq_or_lt_of_le hm with rfl | hm
        · rw [hc]
          trivial
        · exact hall m hm hlt
      · refine Or.inr (hr.skip ?_)
        rw [hc]
        trivial
    · refine Or.inr ⟨i, le_rfl, by omega, Or.inl hc, fun m hm hlt => by omega⟩

/-- A cell before it that is skipped. -/
theorem Waiting.skip (hi : (col i).Skipped) (h : Waiting col (i + 1) len) : Waiting col i len := by
  refine h.imp (fun h m hm hlt => ?_) (Reaches.skip hi)
  rcases Nat.eq_or_lt_of_le hm with rfl | hm
  · exact hi
  · exact h m hm hlt

/-- The value that has arrived is the value. -/
theorem Arrived.value_eq (h : Arrived col i len v) : value col i len = some v := by
  obtain ⟨j, hij, hj, hc, hskip⟩ := h
  rw [value_of_passed hij hj.le fun m hm hlt => (hskip m hm hlt).passed]
  apply value_of_read hj
  rcases hc with hc | hc <;> rw [hc] <;> rfl

/-- Behind a table that can take a value the key is in no table. -/
theorem Ok.uninstalled (h : Ok col len b) (hbi : b ≤ i) (hi : ¬ (col i = full ∨ (col i).Tagged)) :
    ∀ m, i + 1 ≤ m → m < len → ¬ (col m).Installed := by
  intro m hm hlt hins
  exact hi (h.behind i m hbi (by omega) hlt hins)

/-- Columns that are the same. -/
theorem Ok.congr (h : Ok col len b) (hsame : ∀ m, b ≤ m → m < len → col' m = col m) :
    Ok col' len b := by
  refine ⟨fun i j hbi hij hj hins => ?_, fun i v hbi hi hc => ?_⟩
  · rw [hsame j (by omega) hj] at hins
    rw [hsame i hbi (by omega)]
    exact h.behind i j hbi hij hj hins
  · rw [hsame i hbi hi] at hc
    have hsame' : ∀ m, i + 1 ≤ m → m < len → col' m = col m := fun m hm => hsame m (by omega)
    exact (h.settled i v hbi hi hc).congr hsame'

/-- The readers may start later. -/
theorem Ok.weaken {b' : ℕ} (h : Ok col len b) (hb : b ≤ b') : Ok col len b' :=
  ⟨fun i j hbi => h.behind i j (hb.trans hbi), fun i v hbi => h.settled i v (hb.trans hbi)⟩

end Lemmas

/-! ## The moves -/

section Moves

variable {col col' : ℕ → Cell α} {b i j k len : ℕ} {v w : α}

/-- The columns differ in table `i` only. -/
def SameBut (i : ℕ) (col col' : ℕ → Cell α) : Prop := ∀ m, m ≠ i → col' m = col m

/-- Cells before it that are skipped. -/
theorem Settled.of_skip (hij : i ≤ j) (h : Settled col j len w)
    (hskip : ∀ m, i ≤ m → m < j → (col m).Skipped) : Settled col i len w := by
  rcases h with (hall | hr) | ha
  · refine Or.inl (Or.inl fun m hm hlt => ?_)
    rcases Nat.lt_or_ge m j with hmj | hmj
    · exact hskip m hm hmj
    · exact hall m hmj hlt
  · exact Or.inl (Or.inr (hr.of_skip hij hskip))
  · exact Or.inr (ha.of_skip hij hskip)

/-- A cell that is not skipped is where it ends. -/
theorem Reaches.at_rest {P : Cell α → Prop} (h : Reaches col i len P) (hc : ¬ (col i).Skipped) :
    P (col i) := by
  obtain ⟨j, hij, _, hP, hskip⟩ := h
  rcases Nat.eq_or_lt_of_le hij with rfl | hlt
  · exact hP
  · exact absurd (hskip i le_rfl hlt) hc

/-- A cell that waits and is not skipped has no value. -/
theorem Waiting.at_rest (hi : i < len) (h : Waiting col i len) (hc : ¬ (col i).Skipped) :
    col i = vacant ∨ col i = blank := by
  rcases h with hall | hr
  · exact absurd (hall i le_rfl hi) hc
  · exact hr.at_rest hc

/-- What a copier of `w` finds where it does not go on. -/
theorem Settled.at_rest (hi : i < len) (h : Settled col i len w) (hc : ¬ (col i).Skipped) :
    col i = vacant ∨ col i = blank ∨ col i = live w ∨ col i = moving w := by
  rcases h with hw | ha
  · exact (hw.at_rest hi hc).imp id Or.inl
  · exact Or.inr (Or.inr (ha.at_rest hc))

/-- A copier goes on. -/
theorem Waiting.next (h : Waiting col i len) (hc : (col i).Skipped) : Waiting col (i + 1) len := by
  rcases h with hall | ⟨j, hij, hj, hP, hskip⟩
  · exact Or.inl fun m hm hlt => hall m (by omega) hlt
  · have hne : i ≠ j := by
      rintro rfl
      rcases hP with hP | hP <;> rw [hP] at hc <;> exact hc
    exact Or.inr ⟨j, by omega, hj, hP, fun m hm hlt => hskip m (by omega) hlt⟩

/-- A copier comes to rest below `j`, or it gets to `j`. -/
theorem Reaches.split {P : Cell α → Prop} (h : Reaches col i len P) :
    (∀ col', (∀ m, i ≤ m → m < j → col' m = col m) → Reaches col' i len P)
      ∨ ((∀ m, i ≤ m → m < j → (col m).Skipped) ∧ (i ≤ j → Reaches col j len P)) := by
  obtain ⟨r, hir, hr, hP, hskip⟩ := h
  rcases Nat.lt_or_ge r j with hrj | hrj
  · refine Or.inl fun col' hsame => ⟨r, hir, hr, ?_, fun m hm hlt => ?_⟩
    · rw [hsame r hir hrj]
      exact hP
    · rw [hsame m hm (hlt.trans hrj)]
      exact hskip m hm hlt
  · refine Or.inr ⟨fun m hm hlt => hskip m hm (hlt.trans_le hrj), fun hij => ?_⟩
    exact ⟨r, hrj, hr, hP, fun m hm hlt => hskip m (hij.trans hm) hlt⟩

/-- Either all is before `j`, or nothing is. -/
theorem Settled.split (hij : i ≤ j) (hj : j ≤ len) (h : Settled col i len w) :
    (∀ col', (∀ m, i ≤ m → m < j → col' m = col m) → Settled col' i len w)
      ∨ ((∀ m, i ≤ m → m < j → (col m).Skipped) ∧ Settled col j len w) := by
  rcases h with (hall | hr) | ha
  · exact Or.inr ⟨fun m hm hlt => hall m hm (by omega),
      Or.inl (Or.inl fun m hm hlt => hall m (by omega) hlt)⟩
  · rcases hr.split with hr' | ⟨hskip, hr'⟩
    · exact Or.inl fun col' hsame => Or.inl (Or.inr (hr' col' hsame))
    · exact Or.inr ⟨hskip, Or.inl (Or.inr (hr' hij))⟩
  · rcases ha.split with ha' | ⟨hskip, ha'⟩
    · exact Or.inl fun col' hsame => Or.inr (ha' col' hsame)
    · exact Or.inr ⟨hskip, Or.inr (ha' hij)⟩

/-- **A change of one cell.**  What the copiers below it find from it on has to be all
right, and it must not shut a value in. -/
theorem Ok.update (h : Ok col len b) (hsame : SameBut i col col') (hi : i < len)
    (hbelow : (col' i).Installed → ∀ m, b ≤ m → m < i → col m = full ∨ (col m).Tagged)
    (hbehind : (∃ m, i < m ∧ m < len ∧ (col m).Installed) → b ≤ i → col' i = full ∨ (col' i).Tagged)
    (hat : ∀ w, col' i = moving w → b ≤ i → Settled col (i + 1) len w)
    (hpath : ∀ w k, b ≤ k → k < i → col k = moving w →
      (∀ m, k + 1 ≤ m → m < i → (col m).Skipped) → Settled col i len w → Settled col' i len w) :
    Ok col' len b := by
  refine ⟨fun k j hbk hkj hj hins => ?_, fun k w hbk hk hm => ?_⟩
  · by_cases hji : j = i
    · rw [hji] at hins hkj
      rw [hsame k hkj.ne]
      exact hbelow hins k hbk hkj
    · rw [hsame j hji] at hins
      by_cases hki : k = i
      · rw [hki] at hkj hbk ⊢
        exact hbehind ⟨j, hkj, hj, hins⟩ hbk
      · rw [hsame k hki]
        exact h.behind k j hbk hkj hj hins
  · rcases Nat.lt_trichotomy k i with hki | rfl | hki
    · rw [hsame k hki.ne] at hm
      rcases (h.settled k w hbk hk hm).split hki hi.le with hstay | ⟨hskip, hset⟩
      · exact hstay col' fun m _ hlt => hsame m hlt.ne
      · refine (hpath w k hbk hki hm hskip hset).of_skip hki fun m hm hlt => ?_
        rw [hsame m hlt.ne]
        exact hskip m hm hlt
    · exact (hat w hm hbk).congr fun m hm _ => hsame m (by omega)
    · rw [hsame k hki.ne'] at hm
      exact (h.settled k w hbk hk hm).congr fun m hm _ => hsame m (by omega)

/-- The key comes into a table that had room for it, or the table has less room than
before: the key is in no later table. -/
theorem Ok.of_vacant (h : Ok col len b) (hsame : SameBut i col col') (hbi : b ≤ i) (hi : i < len)
    (hv : col i = vacant) (hc : col' i = full ∨ col' i = vacant ∨ col' i = blank ∨ col' i = copied)
    (hbelow : (col' i).Installed → ∀ m, b ≤ m → m < i → col m = full ∨ (col m).Tagged) :
    Ok col' len b ∧ value col' b len = value col b len := by
  have hnot : ¬ (col i = full ∨ (col i).Tagged) := by
    rw [hv]
    rintro (h | h)
    · cases h
    · exact h
  have hlater := h.uninstalled hbi hnot
  have hlater' : ∀ m, i + 1 ≤ m → m < len → ¬ (col' m).Installed := by
    intro m hm hlt
    rw [hsame m (by omega)]
    exact hlater m hm hlt
  have hnone' : value col' (i + 1) len = none := value_of_uninstalled hlater'
  refine ⟨h.update hsame hi hbelow ?_ ?_ fun w k _ _ _ _ _ => Or.inl ?_, ?_⟩
  · rintro ⟨m, hm, hlt, hins⟩
    exact absurd hins (hlater m hm hlt)
  · intro w hw
    rcases hc with hc | hc | hc | hc <;> rw [hc] at hw <;> cases hw
  · rcases hc with hc | hc | hc | hc
    · exact (Waiting.of_uninstalled hlater').skip (by rw [hc]; trivial)
    · exact Or.inr ⟨i, le_rfl, hi, Or.inl hc, fun m hm hlt => by omega⟩
    · exact Or.inr ⟨i, le_rfl, hi, Or.inr hc, fun m hm hlt => by omega⟩
    · exact (Waiting.of_uninstalled hlater').skip (by rw [hc]; trivial)
  · refine value_congr_below hbi hi.le (fun m _ hlt => hsame m hlt.ne) ?_
    rw [value_of_read hi (show (col i).read = some none by rw [hv]; rfl)]
    rcases hc with hc | hc | hc | hc
    · rw [value_of_read_none hi (by rw [hc]; rfl), hnone']
    · exact value_of_read hi (by rw [hc]; rfl)
    · exact value_of_read hi (by rw [hc]; rfl)
    · rw [value_of_read_none hi (by rw [hc]; rfl), hnone']

/-- A cell that can take a value is shut, with its value if it has one. -/
theorem Ok.shut (h : Ok col len b) (hsame : SameBut i col col') (hbi : b ≤ i) (hi : i < len)
    (hc : (col i = blank ∧ col' i = copied) ∨ (col i = tomb ∧ col' i = buried)
      ∨ ∃ v, col i = live v ∧ col' i = moving v) :
    Ok col' len b ∧ value col' b len = value col b len := by
  have hopen : (col i).Open := by
    rcases hc with ⟨hc, _⟩ | ⟨hc, _⟩ | ⟨v, hc, _⟩ <;> rw [hc] <;> trivial
  have hins : (col i).Installed := by
    rcases hc with ⟨hc, _⟩ | ⟨hc, _⟩ | ⟨v, hc, _⟩ <;> rw [hc] <;> trivial
  have hlater := h.uninstalled hbi hopen.not_full_or_tagged
  have hlater' : ∀ m, i + 1 ≤ m → m < len → ¬ (col' m).Installed := by
    intro m hm hlt
    rw [hsame m (by omega)]
    exact hlater m hm hlt
  have hnone' : value col' (i + 1) len = none := value_of_uninstalled hlater'
  refine ⟨h.update hsame hi (fun _ m hm hlt => h.behind m i hm hlt hi hins) ?_
    (fun _ _ _ => Or.inl (Waiting.of_uninstalled hlater)) fun w k _ _ _ _ hset => ?_, ?_⟩
  · rintro ⟨m, hm, hlt, hm'⟩
    exact absurd hm' (hlater m hm hlt)
  · rcases hc with ⟨_, hc⟩ | ⟨hc, _⟩ | ⟨v, hc, hc'⟩
    · exact Or.inl ((Waiting.of_uninstalled hlater').skip (by rw [hc]; trivial))
    · have hrest := hset.at_rest hi (by rw [hc]; exact id)
      rw [hc] at hrest
      rcases hrest with h | h | h | h <;> cases h
    · have hrest := hset.at_rest hi (by rw [hc]; exact id)
      rw [hc] at hrest
      have hvw : v = w := by
        rcases hrest with h | h | h | h <;> cases h
        rfl
      subst hvw
      exact Or.inr ⟨i, le_rfl, hi, Or.inr hc', fun m hm hlt => by omega⟩
  · refine value_congr_below hbi hi.le (fun m _ hlt => hsame m hlt.ne) ?_
    rcases hc with ⟨hc, hc'⟩ | ⟨hc, hc'⟩ | ⟨v, hc, hc'⟩
    · rw [value_of_read hi (show (col i).read = some none by rw [hc]; rfl),
        value_of_read_none hi (by rw [hc']; rfl), hnone']
    · rw [value_of_read hi (show (col i).read = some none by rw [hc]; rfl),
        value_of_read_none hi (by rw [hc']; rfl), hnone']
    · rw [value_of_read hi (show (col i).read = some (some v) by rw [hc]; rfl)]
      exact value_of_read hi (by rw [hc']; rfl)

/-- A copier puts the value into the table that it gets to. -/
theorem Ok.arrive (h : Ok col len b) (hsame : SameBut i col col') (hi : i < len)
    (hb : col i = blank) (hc : col' i = live v) (hbk : b ≤ k) (hki : k < i)
    (hk : col k = moving v) (hskip : ∀ m, k + 1 ≤ m → m < i → (col m).Skipped) :
    Ok col' len b ∧ value col' b len = value col b len := by
  have hins : (col i).Installed := by
    rw [hb]
    trivial
  have hnot : ¬ (col i = full ∨ (col i).Tagged) := by
    rw [hb]
    rintro (h | h)
    · cases h
    · exact h
  have hlater := h.uninstalled (hbk.trans hki.le) hnot
  refine ⟨h.update hsame hi (fun _ m hm hlt => h.behind m i hm hlt hi hins) ?_ ?_ ?_, ?_⟩
  · rintro ⟨m, hm, hlt, hm'⟩
    exact absurd hm' (hlater m hm hlt)
  · intro w hw
    rw [hc] at hw
    cases hw
  · intro w k' _ hk'i hk' hskip' _
    -- a cell that is being moved is not skipped, so that `k` is the only one that gets here
    have hkk : k' = k := by
      rcases Nat.lt_trichotomy k' k with hlt | heq | hlt
      · have hsk := hskip' k hlt hki
        rw [hk] at hsk
        exact hsk.elim
      · exact heq
      · have hsk := hskip k' hlt hk'i
        rw [hk'] at hsk
        exact hsk.elim
    rw [hkk, hk] at hk'
    cases hk'
    exact Or.inr ⟨i, le_rfl, hi, Or.inl hc, fun m hm hlt => by omega⟩
  · -- the reader stops at `k` at the latest
    refine value_congr_below hbk (hki.trans hi).le (fun m _ hlt => hsame m (by omega)) ?_
    have hk' : col' k = moving v := (hsame k hki.ne).trans hk
    rw [value_of_read (hki.trans hi) (show (col k).read = some (some v) by rw [hk]; rfl)]
    exact value_of_read (hki.trans hi) (by rw [hk']; rfl)

/-- A value is written into the table that the writer gets to. -/
theorem Ok.write (h : Ok col len b) (hsame : SameBut i col col') (hbi : b ≤ i) (hi : i < len)
    (hc : (col i).Open) (hc' : (col' i).Open)
    (hpass : ∀ m, b ≤ m → m < i → (col m).Passed) :
    Ok col' len b ∧ ∀ r, (col' i).read = some r → value col' b len = r := by
  have hlater := h.uninstalled hbi hc.not_full_or_tagged
  refine ⟨h.update hsame hi (fun _ m hm hlt => (hpass m hm hlt).full_or_tagged) ?_ ?_ ?_,
    fun r hr => ?_⟩
  · rintro ⟨m, hm, hlt, hm'⟩
    exact absurd hm' (hlater m hm hlt)
  · intro w hw
    rw [hw] at hc'
    exact hc'.elim
  · intro w k hbk hki hk
    have hp := hpass k hbk hki
    rw [hk] at hp
    exact hp.elim
  · have hpass' : ∀ m, b ≤ m → m < i → (col' m).Passed := by
      intro m hm hlt
      rw [hsame m hlt.ne]
      exact hpass m hm hlt
    rw [value_of_passed hbi hi.le hpass']
    exact value_of_read hi hr

/-- A value that has arrived is given away. -/
theorem Ok.finish (h : Ok col len b) (hsame : SameBut i col col') (hbi : b ≤ i) (hi : i < len)
    (hc : col i = moving v) (hc' : col' i = copied) (harr : Arrived col (i + 1) len v) :
    Ok col' len b ∧ value col' b len = value col b len := by
  have hins : (col i).Installed := by
    rw [hc]
    trivial
  have hskip : (col' i).Skipped := by
    rw [hc']
    trivial
  have harr' : Arrived col' (i + 1) len v := harr.congr fun m hm _ => hsame m (by omega)
  refine ⟨h.update hsame hi (fun _ m hm hlt => h.behind m i hm hlt hi hins) ?_ ?_ ?_, ?_⟩
  · intro _ _
    rw [hc']
    exact Or.inr trivial
  · intro w hw
    rw [hc'] at hw
    cases hw
  · intro w k _ _ _ _ hset
    have hrest := hset.at_rest hi (by rw [hc]; exact id)
    rw [hc] at hrest
    have hvw : v = w := by
      rcases hrest with h | h | h | h <;> cases h
      rfl
    subst hvw
    exact Or.inr (harr'.skip hskip)
  · refine value_congr_below hbi hi.le (fun m _ hlt => hsame m hlt.ne) ?_
    rw [value_of_read hi (show (col i).read = some (some v) by rw [hc]; rfl),
      value_of_read_none hi (by rw [hc']; rfl)]
    exact harr'.value_eq

/-- A new table is put behind the last one. -/
theorem Ok.append (h : Ok col len b) (hsame : SameBut len col col') (hb : b ≤ len)
    (hc : col' len = vacant) : Ok col' (len + 1) b ∧ value col' b (len + 1) = value col b len := by
  refine ⟨⟨fun i j hbi hij hj hins => ?_, fun i w hbi hi hm => ?_⟩, ?_⟩
  · have hjl : j ≠ len := by
      rintro rfl
      rw [hc] at hins
      exact hins
    rw [hsame j hjl] at hins
    rw [hsame i (by omega)]
    exact h.behind i j hbi hij (by omega) hins
  · have hil : i ≠ len := by
      rintro rfl
      rw [hc] at hm
      cases hm
    rw [hsame i hil] at hm
    have hgrow : ∀ P : Cell α → Prop, Reaches col (i + 1) len P →
        Reaches col' (i + 1) (len + 1) P := by
      rintro P ⟨j, hij, hj, hP, hskip⟩
      refine ⟨j, hij, by omega, ?_, fun m hm hlt => ?_⟩
      · rw [hsame j (by omega)]
        exact hP
      · rw [hsame m (by omega)]
        exact hskip m hm hlt
    rcases h.settled i w hbi (by omega) hm with (hall | hr) | ha
    · refine Or.inl (Or.inr ⟨len, by omega, by omega, Or.inl hc, fun m hm hlt => ?_⟩)
      rw [hsame m hlt.ne]
      exact hall m hm hlt
    · exact Or.inl (Or.inr (hgrow _ hr))
    · exact Or.inr (hgrow _ ha)
  · exact value_append hsame hb hc

/-- Readers start at the next table when this one takes no value any more. -/
theorem Ok.retire (h : Ok col len b) (hb : b < len)
    (hc : (col b).Passed ∨ col b = vacant) :
    Ok col len (b + 1) ∧ value col (b + 1) len = value col b len := by
  refine ⟨h.weaken (Nat.le_succ b), ?_⟩
  rcases hc with hc | hc
  · exact (value_of_read_none hb hc.read_eq).symm
  · have hnot : ¬ (col b = full ∨ (col b).Tagged) := by
      rw [hc]
      rintro (h | h)
      · cases h
      · exact h
    rw [value_of_read hb (show (col b).read = some none by rw [hc]; rfl)]
    exact value_of_uninstalled (h.uninstalled le_rfl hnot)

/-- What has moved stays moved: the cells that are skipped stay, and a value that is given
away is behind. -/
theorem Moved.mono {len' : ℕ} (h : Moved col i len) (hlen : len ≤ len')
    (hskip : ∀ m, m < len → (col m).Skipped → (col' m).Skipped)
    (hval : ∀ m, m < len → (col m).Valued →
      (col' m).Valued ∨ ((col' m).Skipped ∧ Moved col' (m + 1) len')) : Moved col' i len' := by
  obtain ⟨j, hij, hj, hv, hsk⟩ := h
  have hsk' : ∀ m, i ≤ m → m < j → (col' m).Skipped := fun m hm hlt =>
    hskip m (hlt.trans hj) (hsk m hm hlt)
  rcases hval j hj hv with hv' | ⟨hj', hrest⟩
  · exact ⟨j, hij, by omega, hv', hsk'⟩
  · exact Reaches.of_skip hij (hrest.skip hj') hsk'

/-- What has moved after a change of one cell had moved before, unless the change brought a
value, or uncovered one. -/
theorem Moved.of_sameBut (h : Moved col' i len) (hsame : SameBut j col col')
    (hval : (col' j).Valued → (col j).Valued)
    (hskip : (col' j).Skipped → (col j).Skipped ∨ (col j).Valued
      ∨ ∀ m, j < m → m < len → ¬ (col m).Valued) : Moved col i len := by
  obtain ⟨r, hir, hr, hv, hsk⟩ := h
  rcases Nat.lt_trichotomy r j with hrj | rfl | hjr
  · refine ⟨r, hir, hr, ?_, fun m hm hlt => ?_⟩
    · rw [← hsame r hrj.ne]
      exact hv
    · rw [← hsame m (by omega)]
      exact hsk m hm hlt
  · refine ⟨r, hir, hr, hval hv, fun m hm hlt => ?_⟩
    rw [← hsame m hlt.ne]
    exact hsk m hm hlt
  · have hvr : (col r).Valued := by
      rw [← hsame r hjr.ne']
      exact hv
    have hrest : ∀ m, m ≠ j → i ≤ m → m < r → (col m).Skipped := by
      intro m hne hm hlt
      rw [← hsame m hne]
      exact hsk m hm hlt
    by_cases hij : i ≤ j
    · rcases hskip (hsk j hij hjr) with hs | hv' | hnone
      · refine ⟨r, hir, hr, hvr, fun m hm hlt => ?_⟩
        by_cases hmj : m = j
        · rw [hmj]
          exact hs
        · exact hrest m hmj hm hlt
      · exact ⟨j, hij, by omega, hv', fun m hm hlt => hrest m hlt.ne hm (by omega)⟩
      · exact absurd hvr (hnone r hjr hr)
    · exact ⟨r, hir, hr, hvr, fun m hm hlt => hrest m (by omega) hm hlt⟩

/-- What is not waited for has come. -/
theorem Settled.arrived (h : Settled col i len v) (hm : Moved col i len) : Arrived col i len v := by
  refine h.resolve_left fun hw => ?_
  obtain ⟨r, hir, hr, hv, hsk⟩ := hm
  have hnot : ¬ (col r).Skipped := by
    intro hs
    cases hc : col r <;> rw [hc] at hs hv <;> first | exact hs | exact hv
  rcases hw with hall | ⟨j, hij, hj, hP, hskip⟩
  · exact hnot (hall r hir hr)
  · have hPnot : ¬ (col j).Skipped ∧ ¬ (col j).Valued := by
      rcases hP with hP | hP <;> rw [hP] <;> exact ⟨id, id⟩
    rcases Nat.lt_trichotomy r j with hlt | rfl | hlt
    · exact hnot (hskip r hir hlt)
    · exact hPnot.2 hv
    · exact hPnot.1 (hsk j hij hlt)

/-- Nothing has moved behind a table that can take a value. -/
theorem Ok.not_moved (h : Ok col len b) (hbi : b ≤ i) (hi : ¬ (col i = full ∨ (col i).Tagged)) :
    ¬ Moved col (i + 1) len := by
  rintro ⟨r, hir, hr, hv, -⟩
  refine h.uninstalled hbi hi r hir hr ?_
  cases hc : col r <;> rw [hc] at hv <;> first | exact hv.elim | trivial

end Moves

end Migration
