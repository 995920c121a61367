/-
# The calls of the map interface (`src/map/map.h`, `src/map/map.c`)

The calls that `map.c` passes on to an implementation, and what they return on a
sorted finite map.

* `Request` — the functions of `map.h`; `Request.call` is what they pass on;
* `Met` — whether an expectation is met by what the map has, and `LooselyMet`, what the
  lists make of it;
* `call`, `looseCall` — the sorted finite map with the one and with the other;
* `Agrees` — the comparison of two keys by the truncated difference is the order.
-/
import Ssr.Map
import Ssr.SortedMap
import Ssr.Sequential

open SortedMap

namespace Map

/-- The functions of a `map_impl_t`, and `sl_min_key`. -/
inductive Call where
  | get (key : ℕ)
  | cas (key expectation new : ℕ)
  | remove (key : ℕ)
  | count
  | minKey
  deriving DecidableEq, Repr

/-- The functions of `map.h`. -/
inductive Request where
  | get (key : ℕ)
  | set (key new : ℕ)
  | add (key new : ℕ)
  | cas (key expectation new : ℕ)
  | replace (key new : ℕ)
  | remove (key : ℕ)
  | count
  deriving DecidableEq, Repr

/-- What a function of `map.h` passes on to the implementation. -/
def Request.call : Request → Call
  | .get key => .get key
  | .set key new => .cas key expectWhatever new
  | .add key new => .cas key expectDoesNotExist new
  | .cas key expectation new => .cas key expectation new
  | .replace key new => .cas key expectExists new
  | .remove key => .remove key
  | .count => .count

/-- Whether an expectation is met by what the map has for the key. -/
def Met (expectation : ℕ) (old : Option ℕ) : Prop :=
  expectation = expectWhatever ∨ (expectation = expectExists ∧ old ≠ none)
    ∨ (expectation = expectDoesNotExist ∧ old = none) ∨ old = some expectation

instance (expectation : ℕ) (old : Option ℕ) : Decidable (Met expectation old) :=
  inferInstanceAs (Decidable (_ ∨ _))

/-- The expectations that `ll_cas` and `sl_cas` take as met: any value that is there will
do, unless none is expected. -/
def LooselyMet (expectation : ℕ) : Option ℕ → Prop
  | none => expectation = expectDoesNotExist ∨ expectation = expectWhatever
  | some _ => expectation ≠ expectDoesNotExist

instance (expectation : ℕ) : (old : Option ℕ) → Decidable (LooselyMet expectation old)
  | none => inferInstanceAs (Decidable (_ ∨ _))
  | some _ => inferInstanceAs (Decidable (_ ≠ _))

/-- What a call returns on a sorted finite map, and the map it leaves; `met` says when a
`cas` stores. -/
def callBy (met : ℕ → Option ℕ → Prop) [∀ expectation old, Decidable (met expectation old)]
    (rank : ℕ ↪ ℤ) (m : List (ℕ × ℕ)) : Call → ℕ × List (ℕ × ℕ)
  | .get key => ((get m key).getD doesNotExist, m)
  | .cas key expectation new =>
    ((get m key).getD doesNotExist,
      if met expectation (get m key) then put rank m key new else m)
  | .remove key => ((get m key).getD doesNotExist, erase m key)
  | .count => (m.length, m)
  | .minKey => ((m.head?.map (·.1)).getD doesNotExist, m)

/-- The calls of the map. -/
abbrev call (rank : ℕ ↪ ℤ) (m : List (ℕ × ℕ)) (c : Call) : ℕ × List (ℕ × ℕ) :=
  callBy Met rank m c

/-- The calls of the lists. -/
abbrev looseCall (rank : ℕ ↪ ℤ) (m : List (ℕ × ℕ)) (c : Call) : ℕ × List (ℕ × ℕ) :=
  callBy LooselyMet rank m c

/-- The key of a call. -/
def Call.key? : Call → Option ℕ
  | .get key => some key
  | .cas key _ _ => some key
  | .remove key => some key
  | _ => none

/-- The expectation of a `cas`, when it is a value and none of the three special ones. -/
def Call.exactValue? : Call → Option ℕ
  | .cas _ expectation _ =>
    if expectation = expectDoesNotExist ∨ expectation = expectExists
      ∨ expectation = expectWhatever then none
    else some expectation
  | _ => none

/-- `ASSERT((int64_t)new_val > 0)`. -/
def Call.Asserted : Call → Prop
  | .cas _ _ new => 0 < new ∧ new < 2 ^ 63
  | _ => True

instance (c : Call) : Decidable c.Asserted :=
  match c with
  | .cas _ _ new => inferInstanceAs (Decidable (0 < new ∧ new < 2 ^ 63))
  | .get _ | .remove _ | .count | .minKey => inferInstanceAs (Decidable True)

/-- An absent key meets two of the expectations. -/
theorem met_none {expectation : ℕ} :
    Met expectation none ↔ expectation = expectDoesNotExist ∨ expectation = expectWhatever := by
  unfold Met
  tauto

theorem looselyMet_none {expectation : ℕ} : LooselyMet expectation none ↔
    expectation = expectDoesNotExist ∨ expectation = expectWhatever :=
  Iff.rfl

theorem looselyMet_some {expectation v : ℕ} :
    LooselyMet expectation (some v) ↔ expectation ≠ expectDoesNotExist :=
  Iff.rfl

/-- The keys after a call. -/
theorem keys_after {rank : ℕ ↪ ℤ} {m : List (ℕ × ℕ)} {c : Call} {p : ℕ × ℕ}
    (hp : p ∈ (looseCall rank m c).2) : p ∈ m ∨ p.1 ∈ c.key? := by
  cases c with
  | get | count | minKey => exact .inl hp
  | remove key => exact .inl (List.mem_of_mem_filter hp)
  | cas key expectation new =>
    simp only [callBy] at hp
    split_ifs at hp
    · rcases mem_put hp with hp | rfl
      · exact .inl hp
      · exact .inr rfl
    · exact .inl hp

/-! ## The order of the keys -/

/-- The truncated difference of two keys has the sign of their order. -/
def Agrees (rank : ℕ ↪ ℤ) (a b : ℕ) : Prop :=
  (keyDiff a b < 0 ↔ rank a < rank b) ∧ (0 < keyDiff a b ↔ rank b < rank a)

instance (rank : ℕ ↪ ℤ) (a b : ℕ) : Decidable (Agrees rank a b) :=
  inferInstanceAs (Decidable (_ ∧ _))

/-- The key of a call is compared with the keys of the map as the order says. -/
def Call.Ordered (rank : ℕ ↪ ℤ) (m : List (ℕ × ℕ)) (c : Call) : Prop :=
  ∀ key ∈ c.key?, ∀ p ∈ m, Agrees rank p.1 key

instance (rank : ℕ ↪ ℤ) (m : List (ℕ × ℕ)) (c : Call) : Decidable (c.Ordered rank m) := by
  unfold Call.Ordered
  infer_instance

/-- The order of the natural numbers. -/
def natural : ℕ ↪ ℤ := ⟨fun k => k, Nat.cast_injective⟩

theorem Agrees.keyDiff_neg {rank : ℕ ↪ ℤ} {a b : ℕ} (h : Agrees rank a b)
    (hlt : rank a < rank b) : keyDiff a b < 0 :=
  h.1.mpr hlt

theorem Agrees.keyDiff_pos {rank : ℕ ↪ ℤ} {a b : ℕ} (h : Agrees rank a b)
    (hlt : rank b < rank a) : 0 < keyDiff a b :=
  h.2.mpr hlt

/-- Keys below `2 ^ 31` are compared as numbers. -/
theorem agrees_of_small {a b : ℕ} (ha : a < 2 ^ 31) (hb : b < 2 ^ 31) : Agrees natural a b := by
  have hd : keyDiff a b = (a : ℤ) - b := keyDiff_of_near (by omega) (by omega)
  unfold Agrees
  rw [hd]
  show ((a : ℤ) - b < 0 ↔ (a : ℤ) < b) ∧ (0 < (a : ℤ) - b ↔ (b : ℤ) < a)
  omega

/-! ## The place of a key -/

/-- The place of key `k` among nodes: behind `lo` and before `hi`, by the order and by the
truncated differences. -/
structure Place {α : Type*} (rank : ℕ ↪ ℤ) (key : α → ℕ) (k : ℕ) (lo hi : List α) : Prop where
  below : ∀ a ∈ lo, rank (key a) < rank k
  above : ∀ a ∈ hi, rank k < rank (key a)
  below_diff : ∀ a ∈ lo, keyDiff (key a) k < 0
  above_diff : ∀ a ∈ hi, 0 < keyDiff (key a) k

/-- The place of key `k` as a search sees it: of the nodes behind, it compares those that are
`first` at their level. -/
structure Sight {α : Type*} (rank : ℕ ↪ ℤ) (key : α → ℕ) (k : ℕ) (first : α → Prop)
    (lo hi : List α) : Prop where
  below : ∀ a ∈ lo, rank (key a) < rank k
  above : ∀ a ∈ hi, rank k < rank (key a)
  below_diff : ∀ a ∈ lo, keyDiff (key a) k < 0
  first_diff : ∀ a, first a → 0 < keyDiff (key a) k

/-- Where all comparisons are right, the search sees the place. -/
theorem Place.sight {α : Type*} {rank : ℕ ↪ ℤ} {key : α → ℕ} {k : ℕ} {lo hi : List α}
    {first : α → Prop} (hp : Place rank key k lo hi) (hfirst : ∀ a, first a → a ∈ hi) :
    Sight rank key k first lo hi :=
  ⟨hp.below, hp.above, hp.below_diff, fun a ha => hp.above_diff a (hfirst a ha)⟩

/-- Every key has a place among sorted nodes. -/
theorem exists_place {α : Type*} {rank : ℕ ↪ ℤ} (key : α → ℕ) {k : ℕ} {xs : List α}
    (hs : xs.Pairwise fun a b => rank (key a) < rank (key b))
    (hord : ∀ a ∈ xs, Agrees rank (key a) k) :
    ∃ lo hi, Place rank key k lo hi
      ∧ (xs = lo ++ hi ∨ ∃ x, key x = k ∧ xs = lo ++ x :: hi) := by
  obtain ⟨lo, hi, hlo, hhi, hsplit⟩ := split_sorted rank key k hs
  have hmem : ∀ a, a ∈ lo ∨ a ∈ hi → Agrees rank (key a) k := by
    intro a ha
    apply hord
    rcases hsplit with rfl | ⟨x, -, rfl⟩
    · simpa using ha
    · simp only [List.mem_append, List.mem_cons]
      tauto
  refine ⟨lo, hi, ⟨hlo, hhi, fun a ha => ?_, fun a ha => ?_⟩, hsplit⟩
  · exact (hmem a (Or.inl ha)).keyDiff_neg (hlo a ha)
  · exact (hmem a (Or.inr ha)).keyDiff_pos (hhi a ha)

section Entries

variable {α : Type*} {rank : ℕ ↪ ℤ} {key val : α → ℕ} {k : ℕ} {lo hi : List α}

theorem Sight.map_below {first : α → Prop} (hp : Sight rank key k first lo hi) :
    ∀ p ∈ lo.map (fun a => (key a, val a)), rank p.1 < rank k := by
  simpa using hp.below

theorem Sight.map_above {first : α → Prop} (hp : Sight rank key k first lo hi) :
    ∀ p ∈ hi.map (fun a => (key a, val a)), rank k < rank p.1 := by
  simpa using hp.above

theorem Place.map_below (hp : Place rank key k lo hi) :
    ∀ p ∈ lo.map (fun a => (key a, val a)), rank p.1 < rank k := by
  simpa using hp.below

theorem Place.map_above (hp : Place rank key k lo hi) :
    ∀ p ∈ hi.map (fun a => (key a, val a)), rank k < rank p.1 := by
  simpa using hp.above

end Entries

end Map
