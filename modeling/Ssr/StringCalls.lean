/-
# Calls with string keys

The keys of the ordered maps are numbers that name strings.  A call compares the keys of the
nodes with its own, by `ns_cmp`; what stands behind its own string in memory is part of the call.

* `Call`, `Request` — the calls, and the memory they find;
* `specCall` — a map from strings to values;
* `cmpKey` — the comparison of a call;
* `label` — labels of the keys on which the truncated difference has the sign of the comparison:
  the search among the labels is that among integer keys.
-/
import Ssr.Nstring
import Ssr.MapCalls

open Map SortedMap

namespace StringKeys

/-! ## The calls -/

/-- The calls that search for a key. -/
inductive Call where
  | get (key : ℕ)
  | cas (key expectation new : ℕ)
  | remove (key : ℕ)
  deriving DecidableEq, Repr

/-- The key of a call. -/
def Call.key : Call → ℕ
  | .get key => key
  | .cas key _ _ => key
  | .remove key => key

/-- The call of the map interface. -/
def Call.toMap : Call → Map.Call
  | .get key => .get key
  | .cas key expectation new => .cas key expectation new
  | .remove key => .remove key

/-- The call for another key. -/
def Call.withKey (k : ℕ) : Call → Call
  | .get _ => .get k
  | .cas _ expectation new => .cas k expectation new
  | .remove _ => .remove k

/-- The call searches once more, to unlink its node. -/
def Call.unlinks : Call → Bool
  | .remove _ => true
  | _ => false

/-- A call, with the memory behind its string: it stays as it is while the call runs. -/
structure Request where
  call : Call
  behind : ℕ → Byte

/-- A call on a map; the lists take any value for the expected one. -/
def specCall (m : ℕ → Option ℕ) (r : Request) : ℕ × (ℕ → Option ℕ) :=
  match r.call with
  | .get key => ((m key).getD doesNotExist, m)
  | .cas key expectation new =>
    ((m key).getD doesNotExist,
      if LooselyMet expectation (m key) then Function.update m key (some new) else m)
  | .remove key => ((m key).getD doesNotExist, Function.update m key none)

/-- The string `s` in memory, with `behind` behind it. -/
def ofBytes (s : List Byte) (behind : ℕ → Byte) : Nstring where
  len := s.length
  data i := s.getD i (behind i)

/-- What a call with the string `s` compares with the string of a node; what stands behind the
latter is not read. -/
def cmpKey (text : ℕ → List Byte) (r : Request) (x : ℕ) : ℤ :=
  nsCmp (ofBytes (text x) fun _ => 0) (ofBytes (text r.call.key) r.behind)

/-- The comparison of the call with the key `x` is misled by the memory behind its string. -/
def Request.MisledBy (text : ℕ → List Byte) (r : Request) (x : ℕ) : Prop :=
  Misled (ofBytes (text x) fun _ => 0) (ofBytes (text r.call.key) r.behind)

/-- The call fits the data types: a string below `2 ^ 31` bytes, and a value that `ll_cas` and
`sl_cas` assert. -/
def Request.Valid (text : ℕ → List Byte) (r : Request) : Prop :=
  (text r.call.key).length < 2 ^ 31 ∧ r.call.toMap.Asserted

/-! ## The comparison -/

section Compare

variable {text : ℕ → List Byte} {r : Request} {x : ℕ}

@[simp] theorem bytes_ofBytes (s : List Byte) (behind : ℕ → Byte) :
    (ofBytes s behind).bytes = s := by
  refine List.ext_getElem (by simp [Nstring.bytes, ofBytes]) fun i hi hi' => ?_
  simp [Nstring.bytes, ofBytes, hi']

variable (hr : (text r.call.key).length < 2 ^ 31) (hx : (text x).length < 2 ^ 31)

include hr hx

theorem cmpKey_neg (hlt : text x < text r.call.key) : cmpKey text r x < 0 := by
  refine (nsCmp_neg hx hr).mpr (Or.inl ?_)
  rwa [bytes_ofBytes, bytes_ofBytes]

theorem cmpKey_pos (hlt : text r.call.key < text x) (hmis : ¬ r.MisledBy text x) :
    0 < cmpKey text r x := by
  refine (nsCmp_pos hx hr).mpr ⟨?_, hmis⟩
  rwa [bytes_ofBytes, bytes_ofBytes]

end Compare

theorem cmpKey_self {text : ℕ → List Byte} {r : Request} (hr : (text r.call.key).length < 2 ^ 31) :
    cmpKey text r r.call.key = 0 := by
  refine (nsCmp_eq_zero hr hr).mpr ?_
  rw [bytes_ofBytes, bytes_ofBytes]

/-- Where zeros follow the second string nothing misleads. -/
theorem not_misled_ofBytes (a : Nstring) (l : List Byte) :
    ¬ Misled a (ofBytes l fun _ => 0) := by
  rintro ⟨i, hi, -, -, hlt⟩
  have hzero : (ofBytes l fun _ => 0).data i = 0 := by
    show l.getD i 0 = 0
    rw [List.getD_eq_getElem?_getD, List.getElem?_eq_none hi, Option.getD_none]
  rw [hzero] at hlt
  exact absurd hlt (Fin.not_lt_zero _)

/-- Zeros behind the string mislead no comparison. -/
theorem not_misledBy_of_zero {text : ℕ → List Byte} {r : Request} (h : r.behind = fun _ => 0)
    (x : ℕ) : ¬ r.MisledBy text x := by
  unfold Request.MisledBy
  rw [h]
  exact not_misled_ofBytes _ _

/-! ## Labels of the keys -/

section Label

variable {cmp : ℕ → ℤ} {k x : ℕ}

/-- The label of a key, with the sign of its comparison in the lowest 32 bits. -/
def label (cmp : ℕ → ℤ) (x : ℕ) : ℕ := 2 ^ 32 * x + (1 + (cmp x).sign).toNat

theorem sign_bounds (d : ℤ) : -1 ≤ d.sign ∧ d.sign ≤ 1 := by
  rcases lt_trichotomy d 0 with h | h | h
  · rw [Int.sign_eq_neg_one_of_neg h]
    decide
  · rw [h]
    decide
  · rw [Int.sign_eq_one_of_pos h]
    decide

theorem label_div (cmp : ℕ → ℤ) (x : ℕ) : label cmp x / 2 ^ 32 = x := by
  have hs := sign_bounds (cmp x)
  rw [label]
  omega

theorem label_injective (cmp : ℕ → ℤ) : Function.Injective (label cmp) :=
  Function.HasLeftInverse.injective ⟨fun y => y / 2 ^ 32, label_div cmp⟩

/-- The truncated difference of the labels has the sign of the comparison. -/
theorem keyDiff_label (hk : cmp k = 0) (x : ℕ) :
    keyDiff (label cmp x) (label cmp k) = (cmp x).sign := by
  have hs := sign_bounds (cmp x)
  have hcast : ((label cmp x : ℕ) : ℤ) - (label cmp k : ℕ)
      = (cmp x).sign + ((2 ^ 32 : ℕ) : ℤ) * ((x : ℤ) - k) := by
    simp only [label, hk, Int.sign_zero]
    push_cast
    rw [Int.toNat_of_nonneg (by omega)]
    ring
  rw [keyDiff, hcast, Int.add_mul_bmod_self_left]
  apply Int.bmod_eq_of_le <;> omega

end Label

/-- The keys of the map and of the call have ranks in the order of their strings, as
labels. -/
theorem exists_rank (text : ℕ ↪ List Byte) (cmp : ℕ → ℤ) (keys : List ℕ) :
    ∃ rank : ℕ ↪ ℤ, ∀ x ∈ keys, ∀ y ∈ keys,
      rank (label cmp x) < rank (label cmp y) ↔ text x < text y := by
  have hdiv : ∀ x, text (label cmp x / 2 ^ 32) = text x := fun x => by rw [label_div]
  obtain ⟨rank, hrank⟩ := SortedMap.exists_rank (fun y => text (y / 2 ^ 32))
    (keys.map (label cmp)).toFinset (by
      intro x hx y hy heq
      simp only [List.coe_toFinset, List.mem_map, Set.mem_ofPred_eq] at hx hy
      obtain ⟨x, -, rfl⟩ := hx
      obtain ⟨y, -, rfl⟩ := hy
      simp only [hdiv] at heq
      rw [text.injective heq])
  refine ⟨rank, fun x hx y hy => ?_⟩
  have hmem : ∀ z ∈ keys, label cmp z ∈ (keys.map (label cmp)).toFinset := fun z hz =>
    List.mem_toFinset.mpr (List.mem_map_of_mem hz)
  rw [hrank _ (hmem x hx) _ (hmem y hy), hdiv, hdiv]

/-- A call of the sorted list of labels is one of the map of strings. -/
theorem looseCall_label {rank : ℕ ↪ ℤ} {f : ℕ → ℕ} (hf : Function.Injective f)
    {entries entries' : List (ℕ × ℕ)} {r : Request}
    (hs : Sorted rank (entries.map fun p => (f p.1, p.2)))
    (he : entries'.map (fun p => (f p.1, p.2))
      = (looseCall rank (entries.map fun p => (f p.1, p.2))
          (r.call.withKey (f r.call.key)).toMap).2) :
    (looseCall rank (entries.map fun p => (f p.1, p.2))
        (r.call.withKey (f r.call.key)).toMap).1 = (specCall (get entries) r).1
      ∧ get entries' = (specCall (get entries) r).2 := by
  have hget := get_map hf entries
  have hget' : ∀ k, get entries' k = get (entries'.map fun p => (f p.1, p.2)) (f k) :=
    fun k => (get_map hf entries' k).symm
  cases hc : r.call with
  | get key =>
    simp only [hc, Call.withKey, Call.toMap, Call.key, callBy] at he ⊢
    simp only [specCall, hc, hget, true_and]
    funext k
    rw [hget', he, hget]
  | cas key expectation new =>
    simp only [hc, Call.withKey, Call.toMap, Call.key, callBy, hget] at he ⊢
    simp only [specCall, hc, true_and]
    funext k
    rw [hget', he]
    split_ifs
    · simp only [hs.get_put, Function.update_apply, hf.eq_iff, hget]
    · exact hget k
  | remove key =>
    simp only [hc, Call.withKey, Call.toMap, Call.key, callBy, hget] at he ⊢
    simp only [specCall, hc, true_and]
    funext k
    rw [hget', he]
    simp only [get_erase, Function.update_apply, hf.eq_iff, hget]

/-- The keys after a call on labels. -/
theorem keys_label {rank : ℕ ↪ ℤ} {f : ℕ → ℕ} (hf : Function.Injective f)
    {entries entries' : List (ℕ × ℕ)} {c : Call}
    (he : entries'.map (fun p => (f p.1, p.2))
      = (looseCall rank (entries.map fun p => (f p.1, p.2)) (c.withKey (f c.key)).toMap).2)
    {x : ℕ} (hx : x ∈ entries'.map Prod.fst) : x ∈ c.key :: entries.map Prod.fst := by
  obtain ⟨p, hp, rfl⟩ := List.mem_map.mp hx
  have hmem : (f p.1, p.2) ∈ (looseCall rank (entries.map fun p => (f p.1, p.2))
      (c.withKey (f c.key)).toMap).2 := by
    rw [← he]
    exact List.mem_map.mpr ⟨p, hp, rfl⟩
  rcases keys_after hmem with hold | hkey
  · obtain ⟨q, hq, heq⟩ := List.mem_map.mp hold
    refine List.mem_cons_of_mem _ (List.mem_map.mpr ⟨q, hq, ?_⟩)
    exact hf (Prod.mk.inj heq).1
  · have hlabel : f p.1 = f c.key := by
      cases c <;> exact (Option.some.inj hkey).symm
    rw [hf hlabel]
    exact List.mem_cons_self

end StringKeys
