/-
# String keys (`src/datatype/nstring.c`)

`ns_cmp` is to order byte strings as a dictionary does.  It hands the length of its first
argument to `memcmp` whichever string is shorter (`ns1->len < ns2->len ? ns1->len : ns1->len`),
so that a longer first string is compared with the memory behind the second.

* `Nstring` — a string and the memory behind it;
* `memcmp_neg`, `memcmp_eq_zero` — what `memcmp` returns;
* `Misled` — the memory behind the second string decides, and decides wrongly;
* `nsCmp_neg`, `nsCmp_eq_zero`, `nsCmp_pos` — the sign of the result;
* `totallyOrders_iff` — on which strings the comparison is a total order.
-/
import Mathlib.Data.List.Lex
import Mathlib.Order.Fin.Basic
import Mathlib.Tactic

namespace StringKeys

/-! ## The functions -/

/-- A byte, as `memcmp` compares it. -/
abbrev Byte := Fin 256

instance byteNeZero : NeZero 256 := ⟨by decide⟩

/-- `nstring_t`: `data` is the memory from the first byte of the string on, which goes on
behind its last one. -/
structure Nstring where
  len : ℕ
  data : ℕ → Byte

/-- The bytes of the string. -/
def Nstring.bytes (s : Nstring) : List Byte := (List.range s.len).map s.data

/-- `memcmp`: the difference of the first two bytes that differ. -/
def memcmp (a b : ℕ → Byte) : ℕ → ℤ
  | 0 => 0
  | n + 1 =>
    if a 0 = b 0 then memcmp (fun i => a (i + 1)) (fun i => b (i + 1)) n
    else ((a 0 : ℕ) : ℤ) - (b 0 : ℕ)

/-- How many bytes `ns_cmp` has `memcmp` read. -/
def cmpLen (ns1 ns2 : Nstring) : ℕ := if ns1.len < ns2.len then ns1.len else ns1.len

/-- `ns_cmp`; the difference of the lengths is narrowed to `int`. -/
def nsCmp (ns1 ns2 : Nstring) : ℤ :=
  let d := memcmp ns1.data ns2.data (cmpLen ns1 ns2)
  if d = 0 then Int.bmod ((ns1.len : ℤ) - ns2.len) (2 ^ 32) else d

/-- `ns_dup`, into memory behind which there is `behind`. -/
def nsDup (behind : ℕ → Byte) (ns1 : Nstring) : Nstring where
  len := ns1.len
  data i := if i < ns1.len then ns1.data i else behind i

/-- The comparison reads both strings only. -/
def InBounds (ns1 ns2 : Nstring) : Prop := cmpLen ns1 ns2 ≤ ns1.len ∧ cmpLen ns1 ns2 ≤ ns2.len

/-- The second string is a proper prefix of the first, and the rest of the first is below the
memory behind the second. -/
def Misled (ns1 ns2 : Nstring) : Prop :=
  ∃ i, ns2.len ≤ i ∧ i < ns1.len ∧ (∀ j < i, ns1.data j = ns2.data j) ∧ ns1.data i < ns2.data i

/-! ## What `memcmp` returns -/

section Memcmp

variable {a b : ℕ → Byte} {n : ℕ}

theorem memcmp_eq_zero : memcmp a b n = 0 ↔ ∀ i < n, a i = b i := by
  induction n generalizing a b with
  | zero => exact iff_of_true rfl fun i hi => absurd hi (Nat.not_lt_zero i)
  | succ n ih =>
    rw [memcmp]
    by_cases h : a 0 = b 0
    · rw [if_pos h, ih, Nat.forall_lt_succ_left]
      exact (and_iff_right h).symm
    · rw [if_neg h]
      refine iff_of_false (fun heq => h (Fin.ext ?_)) fun hall => h (hall 0 n.succ_pos)
      omega

/-- The first difference decides. -/
theorem memcmp_neg : memcmp a b n < 0 ↔ ∃ i < n, (∀ j < i, a j = b j) ∧ a i < b i := by
  induction n generalizing a b with
  | zero => exact iff_of_false (lt_irrefl _) fun ⟨i, hi, _⟩ => Nat.not_lt_zero i hi
  | succ n ih =>
    rw [memcmp]
    by_cases h : a 0 = b 0
    · rw [if_pos h, ih]
      constructor
      · rintro ⟨i, hi, heq, hlt⟩
        exact ⟨i + 1, Nat.succ_lt_succ hi, Nat.forall_lt_succ_left.mpr ⟨h, heq⟩, hlt⟩
      · rintro ⟨i, hi, heq, hlt⟩
        cases i with
        | zero => exact absurd h hlt.ne
        | succ i =>
          exact ⟨i, Nat.lt_of_succ_lt_succ hi, (Nat.forall_lt_succ_left.mp heq).2, hlt⟩
    · rw [if_neg h]
      constructor
      · intro hneg
        exact ⟨0, n.succ_pos, fun j hj => absurd hj (Nat.not_lt_zero j), Fin.lt_def.mpr (by omega)⟩
      · rintro ⟨i, hi, heq, hlt⟩
        cases i with
        | zero =>
          have hval := Fin.lt_def.mp hlt
          omega
        | succ i => exact absurd (heq 0 i.succ_pos) h

end Memcmp

/-! ## What `ns_cmp` returns -/

section Compare

variable {a b : Nstring}

theorem cmpLen_eq (a b : Nstring) : cmpLen a b = a.len := ite_self a.len

theorem inBounds_iff : InBounds a b ↔ a.len ≤ b.len := by
  rw [InBounds, cmpLen_eq]
  exact and_iff_right le_rfl

theorem bytes_nsDup (behind : ℕ → Byte) (s : Nstring) : (nsDup behind s).bytes = s.bytes :=
  List.map_congr_left fun _ hi => if_pos (List.mem_range.mp hi)

theorem bytes_eq_iff : a.bytes = b.bytes ↔ a.len = b.len ∧ ∀ i < a.len, a.data i = b.data i := by
  constructor
  · intro h
    have hlen : a.len = b.len := by
      simpa [Nstring.bytes] using congrArg List.length h
    refine ⟨hlen, fun i hi => ?_⟩
    rw [Nstring.bytes, Nstring.bytes, ← hlen, List.map_inj_left] at h
    exact h i (List.mem_range.mpr hi)
  · rintro ⟨hlen, hdata⟩
    rw [Nstring.bytes, Nstring.bytes, ← hlen, List.map_inj_left]
    exact fun i hi => hdata i (List.mem_range.mp hi)

/-- The order of the dictionary: the shorter string first, or the smaller byte where they
first differ. -/
theorem bytes_lt_iff : a.bytes < b.bytes ↔ (a.len < b.len ∧ ∀ i < a.len, a.data i = b.data i)
    ∨ ∃ i, i < a.len ∧ i < b.len ∧ (∀ j < i, a.data j = b.data j) ∧ a.data i < b.data i := by
  rw [List.lt_iff_exists]
  simp only [Nstring.bytes, List.length_map, List.length_range, List.getElem_map,
    List.getElem_range, exists_prop]
  refine or_congr ?_ Iff.rfl
  rw [and_comm, and_congr_right_iff]
  intro hlt
  rw [← List.map_take, List.take_range, min_eq_left hlt.le, List.map_inj_left]
  simp only [List.mem_range]

/-- The difference of the lengths is not cut. -/
theorem lengthDiff_eq (ha : a.len < 2 ^ 31) (hb : b.len < 2 ^ 31) :
    Int.bmod ((a.len : ℤ) - b.len) (2 ^ 32) = (a.len : ℤ) - b.len := by
  apply Int.bmod_eq_of_le <;> omega

theorem nsCmp_eq_zero (ha : a.len < 2 ^ 31) (hb : b.len < 2 ^ 31) :
    nsCmp a b = 0 ↔ a.bytes = b.bytes := by
  rw [bytes_eq_iff, nsCmp, cmpLen_eq, lengthDiff_eq ha hb, ← memcmp_eq_zero]
  split_ifs with hd
  · rw [and_iff_left hd, sub_eq_zero, Nat.cast_inj]
  · exact iff_of_false hd fun h => hd h.2

theorem nsCmp_neg (ha : a.len < 2 ^ 31) (hb : b.len < 2 ^ 31) :
    nsCmp a b < 0 ↔ a.bytes < b.bytes ∨ Misled a b := by
  rw [bytes_lt_iff, nsCmp, cmpLen_eq, lengthDiff_eq ha hb]
  split_ifs with hd
  · -- no difference: the lengths decide
    rw [memcmp_eq_zero] at hd
    constructor
    · intro hlt
      exact Or.inl (Or.inl ⟨by omega, hd⟩)
    · rintro ((⟨hlt, -⟩ | ⟨i, hi, -, -, hlt⟩) | ⟨i, -, hi, -, hlt⟩)
      · omega
      · exact absurd (hd i hi) hlt.ne
      · exact absurd (hd i hi) hlt.ne
  · rw [memcmp_neg]
    rw [memcmp_eq_zero] at hd
    constructor
    · rintro ⟨i, hi, heq, hlt⟩
      rcases lt_or_ge i b.len with hib | hbi
      · exact Or.inl (Or.inr ⟨i, hi, hib, heq, hlt⟩)
      · exact Or.inr ⟨i, hbi, hi, heq, hlt⟩
    · rintro ((⟨-, heq⟩ | ⟨i, hi, -, heq, hlt⟩) | ⟨i, -, hi, heq, hlt⟩)
      · exact absurd heq hd
      · exact ⟨i, hi, heq, hlt⟩
      · exact ⟨i, hi, heq, hlt⟩

/-- A misled comparison is one of a string with a proper prefix. -/
theorem Misled.lt (h : Misled a b) : b.bytes < a.bytes := by
  obtain ⟨i, hbi, hi, heq, -⟩ := h
  refine bytes_lt_iff.mpr (Or.inl ⟨by omega, fun j hj => ?_⟩)
  exact (heq j (by omega)).symm

theorem Misled.len_lt (h : Misled a b) : b.len < a.len := by
  obtain ⟨i, hbi, hi, -⟩ := h
  omega

theorem nsCmp_pos (ha : a.len < 2 ^ 31) (hb : b.len < 2 ^ 31) :
    0 < nsCmp a b ↔ b.bytes < a.bytes ∧ ¬ Misled a b := by
  have hzero := nsCmp_eq_zero ha hb
  have hneg := nsCmp_neg ha hb
  constructor
  · intro hpos
    have hne : a.bytes ≠ b.bytes := fun heq => by
      have := hzero.mpr heq
      omega
    have hlt : ¬ (a.bytes < b.bytes ∨ Misled a b) := fun h => by
      have := hneg.mpr h
      omega
    rw [not_or] at hlt
    exact ⟨lt_of_le_of_ne (not_lt.mp hlt.1) (Ne.symm hne), hlt.2⟩
  · rintro ⟨hlt, hmis⟩
    have hne : nsCmp a b ≠ 0 := fun h => hlt.ne' (hzero.mp h)
    have hnn : ¬ nsCmp a b < 0 := fun h => (hneg.mp h).elim (fun h => lt_asymm h hlt) hmis
    omega

theorem nsCmp_nonpos (ha : a.len < 2 ^ 31) (hb : b.len < 2 ^ 31) :
    nsCmp a b ≤ 0 ↔ a.bytes ≤ b.bytes ∨ Misled a b := by
  rw [← not_lt, nsCmp_pos ha hb, not_and_or, not_lt, not_not]

/-- A prefix is before the longer string, whatever is behind the two. -/
theorem Misled.swap_neg (ha : a.len < 2 ^ 31) (hb : b.len < 2 ^ 31) (h : Misled a b) :
    nsCmp b a < 0 :=
  (nsCmp_neg hb ha).mpr (Or.inl h.lt)

/-- The two orders of the arguments agree unless one of them is misled. -/
theorem opposite_iff (ha : a.len < 2 ^ 31) (hb : b.len < 2 ^ 31) :
    (nsCmp a b).sign = - (nsCmp b a).sign ↔ ¬ Misled a b ∧ ¬ Misled b a := by
  constructor
  · intro h
    constructor
    · intro hm
      have hab := (nsCmp_neg ha hb).mpr (Or.inr hm)
      rw [Int.sign_eq_neg_one_of_neg hab, Int.sign_eq_neg_one_of_neg (hm.swap_neg ha hb)] at h
      omega
    · intro hm
      have hba := (nsCmp_neg hb ha).mpr (Or.inr hm)
      rw [Int.sign_eq_neg_one_of_neg hba, Int.sign_eq_neg_one_of_neg (hm.swap_neg hb ha)] at h
      omega
  · rintro ⟨hab, hba⟩
    rcases lt_trichotomy a.bytes b.bytes with hlt | heq | hgt
    · rw [Int.sign_eq_neg_one_of_neg ((nsCmp_neg ha hb).mpr (Or.inl hlt)),
        Int.sign_eq_one_of_pos ((nsCmp_pos hb ha).mpr ⟨hlt, hba⟩)]
    · rw [(nsCmp_eq_zero ha hb).mpr heq, (nsCmp_eq_zero hb ha).mpr heq.symm]
      rfl
    · rw [Int.sign_eq_one_of_pos ((nsCmp_pos ha hb).mpr ⟨hgt, hab⟩),
        Int.sign_eq_neg_one_of_neg ((nsCmp_neg hb ha).mpr (Or.inl hgt))]
      rfl

end Compare

/-! ## When the comparison is an order -/

/-- What a comparison owes to three strings. -/
structure Orders (a b c : Nstring) : Prop where
  inBounds : InBounds a b
  zero : nsCmp a b = 0 ↔ a.len = b.len ∧ ∀ i < a.len, a.data i = b.data i
  opposite : (nsCmp a b).sign = - (nsCmp b a).sign
  trans : nsCmp a b ≤ 0 → nsCmp b c ≤ 0 → nsCmp a c ≤ 0

/-- The comparison is a total order on the strings of `S`. -/
structure TotallyOrders (S : Set Nstring) : Prop where
  zero : ∀ a ∈ S, ∀ b ∈ S, nsCmp a b = 0 ↔ a.len = b.len ∧ ∀ i < a.len, a.data i = b.data i
  opposite : ∀ a ∈ S, ∀ b ∈ S, (nsCmp a b).sign = - (nsCmp b a).sign
  trans : ∀ a ∈ S, ∀ b ∈ S, ∀ c ∈ S, nsCmp a b ≤ 0 → nsCmp b c ≤ 0 → nsCmp a c ≤ 0

section Order

variable {a b c : Nstring} {S : Set Nstring}

/-- For three strings: the first is not the longer one, it does not mislead the second, and the
third does not mislead the second into an order that the first contradicts. -/
theorem orders_iff (ha : a.len < 2 ^ 31) (hb : b.len < 2 ^ 31) (hc : c.len < 2 ^ 31) :
    Orders a b c ↔ a.len ≤ b.len ∧ ¬ Misled b a
      ∧ ¬ (a.bytes ≤ b.bytes ∧ Misled b c ∧ c.bytes < a.bytes ∧ ¬ Misled a c) := by
  constructor
  · intro h
    refine ⟨inBounds_iff.mp h.inBounds, ((opposite_iff ha hb).mp h.opposite).2, ?_⟩
    rintro ⟨hab, hbc, hca, hac⟩
    have hle := h.trans ((nsCmp_nonpos ha hb).mpr (Or.inl hab))
      ((nsCmp_nonpos hb hc).mpr (Or.inr hbc))
    exact not_lt.mpr hle ((nsCmp_pos ha hc).mpr ⟨hca, hac⟩)
  · rintro ⟨hlen, hba, htrans⟩
    have hab : ¬ Misled a b := fun hm => absurd hm.len_lt (not_lt.mpr hlen)
    refine ⟨inBounds_iff.mpr hlen, (nsCmp_eq_zero ha hb).trans bytes_eq_iff,
      (opposite_iff ha hb).mpr ⟨hab, hba⟩, fun h₁ h₂ => ?_⟩
    rw [nsCmp_nonpos ha hb, or_iff_left hab] at h₁
    rw [nsCmp_nonpos hb hc] at h₂
    by_contra hpos
    obtain ⟨hca, hac⟩ := (nsCmp_pos ha hc).mp (not_le.mp hpos)
    rcases h₂ with hbc | hbc
    · exact absurd (h₁.trans hbc) (not_le.mpr hca)
    · exact htrans ⟨h₁, hbc, hca, hac⟩

/-- The comparison is a total order on a set of strings exactly when it is misled on none of
their pairs. -/
theorem totallyOrders_iff (hS : ∀ s ∈ S, s.len < 2 ^ 31) :
    TotallyOrders S ↔ ∀ a ∈ S, ∀ b ∈ S, ¬ Misled a b := by
  constructor
  · intro h a ha b hb
    exact ((opposite_iff (hS a ha) (hS b hb)).mp (h.opposite a ha b hb)).1
  · intro h
    refine ⟨fun a ha b hb => (nsCmp_eq_zero (hS a ha) (hS b hb)).trans bytes_eq_iff,
      fun a ha b hb => (opposite_iff (hS a ha) (hS b hb)).mpr ⟨h a ha b hb, h b hb a ha⟩, ?_⟩
    intro a ha b hb c hc h₁ h₂
    rw [nsCmp_nonpos (hS a ha) (hS b hb), or_iff_left (h a ha b hb)] at h₁
    rw [nsCmp_nonpos (hS b hb) (hS c hc), or_iff_left (h b hb c hc)] at h₂
    exact (nsCmp_nonpos (hS a ha) (hS c hc)).mpr (Or.inl (h₁.trans h₂))

end Order

end StringKeys
