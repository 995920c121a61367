/-
# Iterating over the hash table while it changes

The `ht_iter_next` calls of one iterator alternate with `ht_cas` and `ht_remove` in any order.
The iterator reads one table, the last one at the time of `ht_iter_begin`, and looks up in the
tables behind it what has been copied since.

* `Walk` — the run of one iterator: the state, and as history the tables from the beginning to
  the end of the iteration and the answers of `ht_iter_next`;
* `Faithful` — what an iteration is to do;
* `Misread` — the entries that `ht_iter_next` takes for something else: it does not know
  `TAG_VALUE(TOMBSTONE, TAG1)`, and passes the key word of a copied entry on with the bits of
  the hash that `hti_cas` has put into it;
* `iterNext_spec` — one call, where it does not come to such an entry;
* `walk_faithful` — whole runs.
-/
import Ssr.HashtableIterBegin
import Ssr.Iteration
import Ssr.Sequential

open Interleaving Map Migration Hashtable Sequential

namespace HashtableIter

/-! ## A run of an iterator -/

/-- `ht_iter_next`, with the key that it stores for the caller. -/
def htIterNextKey (kt : KeyType) (fuel : ℕ) (s : St) (id : ℕ) : Option ((ℕ × ℕ) × St) :=
  match s.iter id with
  | none => none
  | some it =>
    (iterNext kt fuel s.ht it.hti it.pos).map fun (r, pos, ht) =>
      (r, { s with ht := ht, iters := { it with pos := pos } :: s.iters.erase it })

theorem htIterNext_eq (kt : KeyType) (fuel : ℕ) (s : St) (id : ℕ) :
    htIterNext kt fuel s id = (htIterNextKey kt fuel s id).map fun p => (p.1.2, p.2) := by
  unfold htIterNext htIterNextKey
  cases s.iter id with
  | none => rfl
  | some it =>
    simp only [Option.map_map]
    rfl

/-- The run of one iterator so far. -/
structure Walk where
  st : St
  id : ℕ
  watched : List Ht
  answers : List (Ht × Option (ℕ × ℕ))

namespace Walk

/-- The iterator has just been opened. -/
def opened (st : St) (id : ℕ) : Walk := ⟨st, id, [st.ht], []⟩

/-- The end was answered. -/
def ended (w : Walk) : Bool := w.answers.any fun a => a.2.isNone

/-- The keys that were returned. -/
def keys (w : Walk) : List ℕ := w.answers.filterMap fun a => a.2.map Prod.fst

/-- The key was there from the beginning of the iteration to its end. -/
def Steady (kt : KeyType) (w : Walk) (k : ℕ) : Prop := ∀ t ∈ w.watched, t.absMap kt k ≠ none

/-- A call on the table. -/
def called (w : Walk) (st : St) : Walk :=
  { w with st := st, watched := if w.ended then w.watched else w.watched ++ [st.ht] }

/-- A call of `ht_iter_next`. -/
def answered (w : Walk) (a : Option (ℕ × ℕ)) (st : St) : Walk :=
  { w with st := st, answers := w.answers ++ [(w.st.ht, a)] }

/-- An iterator is opened after the calls `cs`. -/
def begun (kt : KeyType) (fuel : ℕ) (cs : List Call) : Option Walk :=
  (run (sys kt fuel) init cs).bind fun s =>
    (htIterBegin kt fuel s).map fun (id, s) => opened s id

/-- What a call returns, and the walk after it. -/
def exec (kt : KeyType) (fuel : ℕ) (w : Walk) : Iteration.Event Call → Option (ℕ × Walk)
  | .call c => (call kt fuel w.st c).map fun (r, st) => (r, w.called st)
  | .next =>
    (htIterNextKey kt fuel w.st w.id).map fun ((key, val), st) =>
      (val, w.answered (if val = doesNotExist then none else some (key, val)) st)

/-- **What an iteration is to do**: it returns no key twice, every pair is one of the map at that
moment, with a value of the user, and in the end every key has been returned that was there all
the time. -/
structure Faithful (kt : KeyType) (w : Walk) : Prop where
  distinct : w.keys.Pairwise fun a b => ¬ kt.Same a b
  current : ∀ a ∈ w.answers, ∀ k v, a.2 = some (k, v) → a.1.absMap kt k = some v ∧ Legal v
  complete : w.ended = true → ∀ k, w.Steady kt k → ∃ l ∈ w.keys, kt.Same l k

end Walk

/-! ## Where it goes right -/

section Condition

variable (kt : KeyType) (s : Ht) (i : ℕ)

/-- `ht_iter_next` goes on behind entry `e` of table `i`: it has no key or no value, or it has
been copied and the key is gone. -/
def PassesOver (e : ℕ) : Prop :=
  kt.keyOf (s.key i e) = doesNotExist ∨ s.val i e = doesNotExist ∨ s.val i e = tombstone
    ∨ (s.val i e = copiedValue
      ∧ value (s.cell kt (kt.keyOf (s.key i e))) (i + 1) s.len = none)

instance (e : ℕ) : Decidable (PassesOver kt s i e) := inferInstanceAs (Decidable (_ ∨ _))

/-- Entry `e` of table `i` has a key and was killed; or it has been copied, and its word is not
the key. -/
def Misread (e : ℕ) : Prop :=
  kt.keyOf (s.key i e) ≠ doesNotExist
    ∧ (s.val i e = tagValue tombstone
      ∨ (s.val i e = copiedValue ∧ ¬ kt.Same (kt.keyOf (s.key i e)) (s.key i e)))

instance (e : ℕ) : Decidable (Misread kt s i e) := inferInstanceAs (Decidable (_ ∧ _))

/-- From position `pos` on `ht_iter_next` does not come to an entry that it misreads. -/
def Clear (pos : ℕ) : Prop :=
  ∀ e < 2 ^ (s.tables i).scale, pos ≤ e → (∀ x < e, pos ≤ x → PassesOver kt s i x) →
    ¬ Misread kt s i e

instance (pos : ℕ) : Decidable (Clear kt s i pos) := by
  unfold Clear
  infer_instance

end Condition

/-- `ht_cas` and `ht_remove`. -/
def Call.Changes : Call → Prop
  | .cas _ _ _ | .remove _ => True
  | _ => False

instance : DecidablePred Call.Changes
  | .cas _ _ _ | .remove _ => isTrue trivial
  | .iterBegin _ | .iterNext _ | .iterFree _ | .rcuUpdate => isFalse id

/-- The events of an iteration: calls that the assertions of the table allow, and `ht_iter_next`
until the end, where it does not come to an entry that it misreads. -/
def Walk.Fits (kt : KeyType) (w : Walk) : Iteration.Event Call → Prop
  | .call c => c.Changes ∧ c.Valid
  | .next => w.ended = false ∧ ∀ it ∈ w.st.iter w.id, Clear kt w.st.ht it.hti it.pos

instance (kt : KeyType) (w : Walk) (c : Iteration.Event Call) : Decidable (w.Fits kt c) := by
  unfold Walk.Fits
  split <;> infer_instance

/-! ## One call of `ht_iter_next` -/

section Next

variable {kt : KeyType} {s : Ht} {i e k pos fuel : ℕ} {m : List (ℕ × ℕ)}

/-- Where the loop of `ht_iter_next` stops. -/
theorem nextEntry_spec (kt : KeyType) (s : Ht) (i : ℕ) (hpos : pos ≤ 2 ^ (s.tables i).scale) :
    ∃ idx, (∀ fuel > 2 ^ (s.tables i).scale - pos, nextEntry kt (s.tables i) fuel pos = some idx)
      ∧ pos ≤ idx ∧ idx ≤ 2 ^ (s.tables i).scale
      ∧ (∀ x < idx, pos ≤ x → PassesOver kt s i x)
      ∧ (idx < 2 ^ (s.tables i).scale → kt.keyOf (s.key i idx) ≠ doesNotExist
        ∧ s.val i idx ≠ doesNotExist ∧ s.val i idx ≠ tombstone) := by
  induction hpos using Nat.decreasingInduction with
  | self =>
    refine ⟨_, fun fuel hfuel => ?_, le_rfl, le_rfl, fun x hx hle => absurd hle (not_le.mpr hx),
      fun hlt => absurd hlt (lt_irrefl _)⟩
    obtain ⟨fuel, rfl⟩ := Nat.exists_eq_add_of_lt (Nat.zero_lt_of_lt hfuel)
    rw [Nat.zero_add, nextEntry, if_pos rfl]
  | of_succ pos hlt ih =>
    by_cases hskip : kt.keyOf (s.key i pos) = doesNotExist ∨ s.val i pos = doesNotExist
        ∨ s.val i pos = tombstone
    · obtain ⟨idx, hrun, hle, hsize, hpass, hstop⟩ := ih
      refine ⟨idx, fun fuel hfuel => ?_, Nat.le_of_succ_le hle, hsize, fun x hx hxpos => ?_, hstop⟩
      · obtain ⟨fuel, rfl⟩ := Nat.exists_eq_add_of_lt (Nat.zero_lt_of_lt hfuel)
        rw [Nat.zero_add] at hfuel ⊢
        rw [nextEntry, if_neg hlt.ne]
        exact (if_pos hskip).trans (hrun fuel (by omega))
      · rcases Nat.eq_or_lt_of_le hxpos with rfl | hx'
        · exact hskip.imp_right (Or.imp_right Or.inl)
        · exact hpass x hx hx'
    · refine ⟨pos, fun fuel hfuel => ?_, le_rfl, hlt.le, fun x hx hle => absurd hle (not_le.mpr hx),
        fun _ => ?_⟩
      · obtain ⟨fuel, rfl⟩ := Nat.exists_eq_add_of_lt (Nat.zero_lt_of_lt hfuel)
        rw [Nat.zero_add, nextEntry, if_neg hlt.ne]
        exact if_neg hskip
      · obtain ⟨hkey, hval⟩ := not_or.mp hskip
        exact ⟨hkey, not_or.mp hval⟩

theorem key_ne_of_keyOf_ne {w : ℕ} (h : kt.keyOf w ≠ doesNotExist) : w ≠ doesNotExist := by
  rintro rfl
  cases kt <;> exact h rfl

/-- What a call of `ht_iter_next` finds from position `pos` of table `i` on: the end, or a key
with its value. -/
inductive Finds (kt : KeyType) (m : List (ℕ × ℕ)) (s : Ht) (i pos : ℕ) : (ℕ × ℕ) → ℕ → Prop
  | done : (∀ x < 2 ^ (s.tables i).scale, pos ≤ x → PassesOver kt s i x) →
      Finds kt m s i pos (doesNotExist, doesNotExist) (2 ^ (s.tables i).scale + 1)
  | entry {e v : ℕ} : pos ≤ e → e < 2 ^ (s.tables i).scale →
      (∀ x < e, pos ≤ x → PassesOver kt s i x) → s.key i e ≠ doesNotExist →
      mapGet kt m (kt.keyOf (s.key i e)) = some v → Legal v →
      Finds kt m s i pos (kt.keyOf (s.key i e), v) (e + 1)

/-- It found the same before, where it goes on behind an entry. -/
theorem Finds.from {pos' : ℕ} {r : ℕ × ℕ} {idx : ℕ} (hpos : pos ≤ idx)
    (hpass : ∀ x ≤ idx, pos ≤ x → PassesOver kt s i x)
    (h : Finds kt m s i (idx + 1) r pos') : Finds kt m s i pos r pos' := by
  have hall : ∀ x, (idx + 1 ≤ x → PassesOver kt s i x) → pos ≤ x → PassesOver kt s i x :=
    fun x hx hxpos => (Nat.lt_or_ge idx x).elim (fun hlt => hx hlt) fun hle => hpass x hle hxpos
  cases h with
  | done hdone => exact .done fun x hx hxpos => hall x (hdone x hx) hxpos
  | entry hle hlt hbefore hkey hget hlegal =>
    exact .entry (by omega) hlt (fun x hx hxpos => hall x (hbefore x hx) hxpos) hkey hget hlegal

/-- A copied entry: its key is found behind the table, or not at all. -/
theorem get_of_copied (h : Refines kt s s.hti m) (hi : i < s.len)
    (hkey : s.key i e ≠ doesNotExist) (hval : s.val i e = copiedValue) {v : ℕ}
    (hv : value (s.cell kt (kt.keyOf (s.key i e))) (i + 1) s.len = some v) :
    mapGet kt m (kt.keyOf (s.key i e)) = some v := by
  have hcell : s.cell kt (kt.keyOf (s.key i e)) i = .copied := by
    rw [Ht.cell_of_key (h.inv.found i e hi hkey) hkey, hval, cellOf_copied]
  refine h.get_of_value (fun x hbx hx => ?_) hv
  rcases Nat.eq_or_lt_of_le (Nat.le_of_lt_succ hx) with rfl | hxi
  · rw [hcell]
    trivial
  · exact h.inv.passed_behind h.books hi (by rw [hcell]; trivial) x hbx hxi

/-- **`ht_iter_next`**, where it does not come to an entry that it misreads. -/
theorem iterNext_spec (hkt : kt.Lawful) (h : Refines kt s s.hti m) (hi : i < s.len)
    (hpos : pos ≤ 2 ^ (s.tables i).scale) (hclear : Clear kt s i pos) :
    ∃ r pos', (∀ fuel ≥ 2 ^ (s.tables i).scale - pos + 2 ^ (s.tables i).scale + s.len + 2,
      iterNext kt fuel s i pos = some (r, pos', s)) ∧ Finds kt m s i pos r pos' := by
  generalize hn : 2 ^ (s.tables i).scale - pos = n
  induction n using Nat.strong_induction_on generalizing pos with
  | _ n ih =>
    obtain ⟨idx, hnext, hle, hsize, hpass, hstop⟩ := nextEntry_spec kt s i hpos
    have hrun : ∀ fuel ≥ n + 2 ^ (s.tables i).scale + s.len + 2, ∃ fuel', fuel = fuel' + 1
        ∧ nextEntry kt (s.tables i) fuel' pos = some idx := by
      intro fuel hfuel
      obtain ⟨fuel', rfl⟩ := Nat.exists_eq_add_of_lt (Nat.zero_lt_of_lt hfuel)
      exact ⟨fuel', by omega, hnext _ (by omega)⟩
    by_cases hend : idx = 2 ^ (s.tables i).scale
    · subst hend
      refine ⟨_, _, fun fuel hfuel => ?_, .done hpass⟩
      obtain ⟨fuel, rfl, hentry⟩ := hrun fuel hfuel
      simp only [iterNext, hentry, if_true]
    have hlt : idx < 2 ^ (s.tables i).scale := lt_of_le_of_ne hsize hend
    obtain ⟨hkeyOf, hval0, htomb⟩ := hstop hlt
    have hmis : ¬ Misread kt s i idx := hclear idx hlt hle hpass
    have hkilled : s.val i idx ≠ tagValue tombstone := fun hk => hmis ⟨hkeyOf, Or.inl hk⟩
    by_cases hcopied : s.val i idx = copiedValue
    · -- the entry has been copied
      have hsame : kt.Same (kt.keyOf (s.key i idx)) (s.key i idx) := by
        by_contra hnot
        exact hmis ⟨hkeyOf, Or.inr ⟨hcopied, hnot⟩⟩
      have hnexttable : i + 1 < s.len :=
        h.inv.next i idx hi (by rw [hcopied]; exact isTagged_tagValue _)
      have hkey : s.key i idx ≠ doesNotExist := key_ne_of_keyOf_ne hkeyOf
      have hget : ∀ fuel > s.len, htiGet kt fuel s (i + 1) (s.key i idx)
          (kt.hash (kt.keyOf (s.key i idx)))
          = some ((value (s.cell kt (kt.keyOf (s.key i idx))) (i + 1) s.len).getD doesNotExist,
            s) := by
        intro fuel hfuel
        rw [hsame.hash_eq hkt, Ht.column_same hkt hsame]
        exact htiGet_value h (Nat.sub_le _ _) hfuel hnexttable
      cases hv : value (s.cell kt (kt.keyOf (s.key i idx))) (i + 1) s.len with
      | none =>
        have hover : PassesOver kt s i idx := Or.inr (Or.inr (Or.inr ⟨hcopied, hv⟩))
        have hpass' : ∀ x ≤ idx, pos ≤ x → PassesOver kt s i x := fun x hx hxpos =>
          (Nat.eq_or_lt_of_le hx).elim (fun heq => heq ▸ hover) fun hlt => hpass x hlt hxpos
        have hclear' : Clear kt s i (idx + 1) := by
          intro e he hepos hbefore
          refine hclear e he (by omega) fun x hx hxpos => ?_
          rcases Nat.lt_or_ge idx x with hidx | hidx
          · exact hbefore x hx hidx
          · exact hpass' x hidx hxpos
        obtain ⟨r, pos', hrest, hfinds⟩ :=
          ih (2 ^ (s.tables i).scale - (idx + 1)) (by omega) hlt hclear' rfl
        refine ⟨r, pos', fun fuel hfuel => ?_, hfinds.from hle hpass'⟩
        obtain ⟨fuel, rfl, hentry⟩ := hrun fuel hfuel
        simp only [iterNext, hentry, if_neg hend, if_pos hcopied, hget fuel (by omega), hv,
          Option.getD_none, if_true]
        exact hrest fuel (by omega)
      | some v =>
        have hlegal : Legal v := h.inv.legal_of_value hv
        refine ⟨_, _, fun fuel hfuel => ?_, .entry hle hlt hpass hkey
          (get_of_copied h hi hkey hcopied hv) hlegal⟩
        obtain ⟨fuel, rfl, hentry⟩ := hrun fuel hfuel
        simp only [iterNext, hentry, if_neg hend, if_pos hcopied, hget fuel (by omega), hv,
          Option.getD_some, if_neg hlegal.1]
    · -- the entry has a value
      have hlegal : Legal (s.val i idx) := by
        have hdead : ¬ Dead (s.val i idx) := not_or.mpr ⟨hcopied, hkilled⟩
        rcases h.inv.stored i idx hi with h0 | h0 | h0 | h0 | ⟨u, -, h0⟩
        · exact absurd h0 hval0
        · exact absurd h0 htomb
        · exact h0
        · exact absurd h0 hdead
        · exact absurd (h.dead_of_isTagged hi hlt (by rw [h0]; exact isTagged_tagValue u)) hdead
      have hbase : s.hti ≤ i := h.inv.base_le hlt hlegal.not_dead
      refine ⟨_, _, fun fuel hfuel => ?_, .entry hle hlt hpass
        (h.inv.val_key i idx hi hval0 hcopied)
        (live_of_legal h.inv h.books h.value_eq hbase hi hlegal) hlegal⟩
      obtain ⟨fuel, rfl, hentry⟩ := hrun fuel hfuel
      simp only [iterNext, hentry, if_neg hend, if_neg hcopied]

/-- A key that was there all the time is not passed over. -/
theorem not_passesOver (hkt : kt.Lawful) (h : Refines kt s s.hti m) (hnn : NonNull kt s)
    (hi : i < s.len) (hf : s.find kt k i = some e) (hkey : s.key i e ≠ doesNotExist)
    (hk : mapGet kt m k ≠ none)
    (hpass : ∀ x, i < x → x < s.hti → (s.cell kt k x).Passed) : ¬ PassesOver kt s i e := by
  have hsame : kt.Same (kt.keyOf (s.key i e)) k := (h.inv.find_iff hkt hi hkey).mp hf
  have he : e < 2 ^ (s.tables i).scale := h.inv.find_lt hi hf
  have hcell := Ht.cell_of_key hf hkey
  -- an entry without a value is in a table that readers come to
  have hstill : ¬ IsTagged (s.val i e) → meaning (s.val i e) ≠ none := by
    intro ht
    have hbase : s.hti ≤ i := h.inv.base_le he fun hd => ht hd.isTagged
    have hins : (s.cell kt k i).Installed := by
      rw [hcell]
      exact cellOf_installed _
    have hbehind := h.inv.passed_behind h.books hi hins
    rwa [← h.get_eq hbase hi hf hkey ht hbehind]
  rintro (h0 | h0 | h0 | ⟨hcopied, hnone⟩)
  · exact hnn i e hi hkey h0
  · exact hstill (by rw [h0]; decide) (by rw [h0]; rfl)
  · exact hstill (by rw [h0]; decide) (by rw [h0]; rfl)
  · rw [Ht.column_same hkt hsame] at hnone
    apply hk
    rw [← h.value_eq k]
    rcases Nat.lt_or_ge i s.hti with hlt | hge
    · rw [← value_of_passed hlt h.inv.base_lt.le fun x hx hlt => hpass x hx hlt]
      exact hnone
    · rw [value_of_passed (Nat.le_succ_of_le hge) hi fun x hbx hx => ?_]
      · exact hnone
      rcases Nat.eq_or_lt_of_le (Nat.le_of_lt_succ hx) with rfl | hxi
      · rw [hcell, hcopied, cellOf_copied]
        trivial
      · exact h.inv.passed_behind h.books hi (by rw [hcell]; exact cellOf_installed _) x hbx hxi

end Next

/-! ## The calls between -/

section Calls

variable {kt : KeyType} {fuel fuel' : ℕ} {s s' : St} {ht ht' : Ht} {m : List (ℕ × ℕ)} {c : Call}

theorem map_mono {α β : Type} {o o' : Option α} {f : α → β} {r : β}
    (hmono : ∀ p, o = some p → o' = some p) (h : o.map f = some r) : o'.map f = some r := by
  obtain ⟨p, hp, rfl⟩ := Option.map_eq_some_iff.mp h
  rw [hmono p hp]
  rfl

theorem htCas_mono {key expected new : ℕ} {r : ℕ × St} (hle : fuel ≤ fuel')
    (h : htCas kt fuel s key expected new = some r) :
    htCas kt fuel' s key expected new = some r := by
  unfold htCas at h ⊢
  by_cases hnext : s.ht.hti + 1 < s.ht.len
  · simp only [if_pos hnext] at h ⊢
    cases hhelp : htiHelpCopy kt fuel s.ht s.ht.hti with
    | none =>
      rw [hhelp] at h
      cases h
    | some p =>
      rw [hhelp] at h
      rw [htiHelpCopy_mono hle hhelp]
      exact map_mono (fun _ => casLoop_mono hle) h
  · simp only [if_neg hnext] at h ⊢
    exact map_mono (fun _ => casLoop_mono hle) h

theorem nextEntry_mono {h : Hti} {pos idx : ℕ} (hle : fuel ≤ fuel')
    (hrun : nextEntry kt h fuel pos = some idx) : nextEntry kt h fuel' pos = some idx := by
  induction fuel generalizing fuel' pos with
  | zero => cases hrun
  | succ fuel ih =>
    obtain ⟨fuel', rfl⟩ : ∃ x, fuel' = x + 1 := ⟨fuel' - 1, by omega⟩
    simp only [nextEntry] at hrun ⊢
    split_ifs at hrun ⊢
    · exact hrun
    · exact ih (Nat.le_of_succ_le_succ hle) hrun
    · exact hrun

theorem iterNext_mono {i pos : ℕ} {r : (ℕ × ℕ) × ℕ × Ht} (hle : fuel ≤ fuel')
    (hrun : iterNext kt fuel ht i pos = some r) : iterNext kt fuel' ht i pos = some r := by
  induction fuel generalizing fuel' pos ht with
  | zero => cases hrun
  | succ fuel ih =>
    obtain ⟨fuel', rfl⟩ : ∃ x, fuel' = x + 1 := ⟨fuel' - 1, by omega⟩
    have hle' : fuel ≤ fuel' := Nat.le_of_succ_le_succ hle
    simp only [iterNext] at hrun ⊢
    cases hnext : nextEntry kt (ht.tables i) fuel pos with
    | none =>
      rw [hnext] at hrun
      cases hrun
    | some idx =>
      rw [hnext] at hrun
      rw [nextEntry_mono hle' hnext]
      simp only at hrun ⊢
      split_ifs at hrun ⊢ with hend hcopied
      · exact hrun
      · cases hget : htiGet kt fuel ht (i + 1) (ht.key i idx)
            (kt.hash (kt.keyOf (ht.key i idx))) with
        | none =>
          rw [hget] at hrun
          cases hrun
        | some p =>
          rw [hget] at hrun
          rw [htiGet_mono hle' hget]
          simp only at hrun ⊢
          split_ifs at hrun ⊢
          · exact ih hle' hrun
          · exact hrun
      · exact hrun

theorem htIterNextKey_mono {id : ℕ} {r : (ℕ × ℕ) × St} (hle : fuel ≤ fuel')
    (h : htIterNextKey kt fuel s id = some r) : htIterNextKey kt fuel' s id = some r := by
  unfold htIterNextKey at h ⊢
  cases hiter : s.iter id with
  | none =>
    rw [hiter] at h
    cases h
  | some it =>
    rw [hiter] at h
    exact map_mono (fun _ => iterNext_mono hle) h

theorem call_mono {r : ℕ × St} (hle : fuel ≤ fuel') (h : call kt fuel s c = some r) :
    call kt fuel' s c = some r := by
  cases c with
  | cas key expected new => exact htCas_mono hle h
  | remove key => exact map_mono (fun _ => casLoop_mono hle) h
  | iterBegin key =>
    simp only [call, htIterBegin] at h ⊢
    cases hlast : lastTable kt fuel s.ht s.ht.hti with
    | none =>
      rw [hlast] at h
      cases h
    | some p =>
      rw [hlast] at h
      rw [lastTable_mono hle hlast]
      exact h
  | iterNext id =>
    simp only [call, htIterNext_eq] at h ⊢
    exact map_mono (fun _ => htIterNextKey_mono hle) h
  | iterFree id => exact h
  | rcuUpdate => exact h

theorem exec_mono (kt : KeyType) : FuelMono (Walk.exec kt) := by
  intro fuel fuel' w e q hle h
  cases e with
  | call c => exact map_mono (fun _ => call_mono hle) h
  | next => exact map_mono (fun _ => htIterNextKey_mono hle) h

/-- `ht_cas` and `ht_remove` return. -/
theorem call_returns (hkt : kt.Lawful) (h : Refines kt s.ht s.ht.hti m) (hc : c.Changes)
    (hvalid : c.Valid) : ∃ r s', Answers (call kt) s c r s' := by
  cases c with
  | cas key expected new =>
    obtain ⟨fuel, ht, hrun, -⟩ := call_spec hkt h (c := .cas key expected new) hvalid
    have hchain := (htCas_chain kt fuel s key expected new).trans (hrun fuel le_rfl)
    obtain ⟨⟨r, s'⟩, hcas, -⟩ := Option.map_eq_some_iff.mp hchain
    exact ⟨r, s', fuel, fun fuel' hle => htCas_mono hle hcas⟩
  | remove key =>
    obtain ⟨fuel, ht, hrun, -⟩ := call_spec hkt h (c := .remove key) hvalid
    refine ⟨(mapCall kt m (.remove key)).1, { s with ht := ht }, fuel, fun fuel' hle => ?_⟩
    have hremove : Hashtable.htRemove kt fuel' s.ht key
        = some ((mapCall kt m (.remove key)).1, ht) := hrun fuel' hle
    simp only [call, htRemove, hremove, Option.map_some]
  | _ => exact hc.elim

/-- They leave the iterators alone. -/
theorem call_iters {r : ℕ} (hc : c.Changes) (hrun : call kt fuel s c = some (r, s')) :
    s'.iters = s.iters := by
  have hmap : ∀ (o : Option (ℕ × Ht)) (f : ℕ × Ht → ℕ × St),
      (∀ p, (f p).2.iters = s.iters) → o.map f = some (r, s') → s'.iters = s.iters := by
    intro o f hf hsome
    obtain ⟨p, -, heq⟩ := Option.map_eq_some_iff.mp hsome
    have hp := hf p
    rwa [heq] at hp
  cases c with
  | cas key expected new =>
    simp only [call, htCas] at hrun
    split at hrun
    · split at hrun
      · cases hrun
      · split at hrun
        · exact hmap _ _ (fun _ => rfl) hrun
        · exact hmap _ _ (fun _ => rfl) hrun
    · exact hmap _ _ (fun _ => rfl) hrun
  | remove key => exact hmap _ _ (fun _ => rfl) hrun
  | _ => exact hc.elim

end Calls

/-! ## The invariant -/

/-- The iterator stands at position `pos` of table `i`.  The keys that it has returned are those
of entries before; a key that was there all the time has an entry in the table, is returned when
it lies before, and goes past all tables between this one and the first. -/
structure Walk.Holds (kt : KeyType) (m : List (ℕ × ℕ)) (i pos : ℕ) (w : Walk) : Prop where
  refines : Refines kt w.st.ht w.st.ht.hti m
  inv : Inv w.st
  nonNull : NonNull kt w.st.ht
  iter : w.st.iter w.id = some ⟨w.id, i, pos⟩
  seen : w.ended = false → w.st.ht ∈ w.watched
  pos_le : w.ended = false → pos ≤ 2 ^ (w.st.ht.tables i).scale
  returned : ∀ k ∈ w.keys, ∃ e < pos, w.st.ht.key i e ≠ doesNotExist
    ∧ kt.keyOf (w.st.ht.key i e) = k
  kept : w.ended = false → ∀ k, w.Steady kt k → ∃ e, w.st.ht.find kt k i = some e
    ∧ w.st.ht.key i e ≠ doesNotExist ∧ (e < pos → ∃ l ∈ w.keys, kt.Same l k)
    ∧ ∀ x, i < x → x < w.st.ht.hti → (w.st.ht.cell kt k x).Passed
  faithful : w.Faithful kt

section Invariant

variable {kt : KeyType} {w : Walk} {i pos fuel r : ℕ} {s s' : St} {m : List (ℕ × ℕ)} {c : Call}

theorem Walk.Holds.lt_len (h : w.Holds kt m i pos) : i < w.st.ht.len :=
  h.inv.iters_lt _ (iter_mem h.iter)

/-- What is there at some moment is in the map of that moment. -/
theorem Refines.absMap_eq {ht : Ht} (h : Refines kt ht ht.hti m) (k : ℕ) :
    ht.absMap kt k = mapGet kt m k := h.value_eq k

/-! ### The beginning -/

theorem init_nonNull (kt : KeyType) : NonNull kt init.ht := fun _ _ _ hne => absurd rfl hne

theorem sys_nonNull (hkt : kt.Lawful) {cs : List Call} (hvalid : ∀ c ∈ cs, c.Valid)
    (h : Refines kt s.ht s.ht.hti m) (hinv : Inv s) (hnn : NonNull kt s.ht)
    (hrun : run (sys kt fuel) s cs = some s') : NonNull kt s'.ht := by
  induction cs generalizing s m with
  | nil =>
    cases hrun
    exact hnn
  | cons c cs ih =>
    obtain ⟨s₁, hstep, hrest⟩ := run_cons_eq_some.mp hrun
    have hcalled := sys_called hkt h hinv (hvalid c List.mem_cons_self) hstep
    exact ih (fun c' hc' => hvalid c' (List.mem_cons_of_mem c hc')) hcalled.refines
      (sys_step hinv hstep).1 (hcalled.nonNull hnn) hrest

/-- In the last table every key of the map has an entry. -/
theorem exists_entry {ht : Ht} {b k : ℕ} (h : Refines kt ht b m) (hlast : b + 1 = ht.len)
    (hk : mapGet kt m k ≠ none) :
    ∃ e, ht.find kt k b = some e ∧ ht.key b e ≠ doesNotExist := by
  obtain ⟨v, hv⟩ := Option.ne_none_iff_exists'.mp hk
  rw [← h.value_eq k] at hv
  obtain ⟨j, hbj, hj, hread, -⟩ := exists_of_value hv
  obtain rfl : j = b := by omega
  rcases cell_cases kt ht k j with ⟨hc, -⟩ | hc | ⟨e, hf, hkey, -⟩
  · rw [hc] at hread
    cases hread
  · rw [hc] at hread
    cases hread
  · exact ⟨e, hf, hkey⟩

/-- **`ht_iter_begin`.** -/
theorem Walk.Holds.opened {id : ℕ} (hkt : kt.Lawful) (h : Refines kt s.ht s.ht.hti m)
    (hinv : Inv s) (hnn : NonNull kt s.ht) (hbegin : htIterBegin kt fuel s = some (id, s')) :
    ∃ i, (Walk.opened s' id).Holds kt m i 0 := by
  have hinv' := (htIterBegin_step hinv hbegin).1
  simp only [htIterBegin] at hbegin
  split at hbegin
  · cases hbegin
  · rename_i i ht hlast
    obtain ⟨hlong, hle, hlen⟩ := lastTable_spec hlast hinv.hti_lt
    obtain ⟨href, href', -, hnull⟩ := lastTable_refines hkt h le_rfl h hlast
    split_ifs at hbegin
    cases hbegin
    rw [← hlong.1] at href
    refine ⟨i, href, hinv', hnull hnn, ?_, fun _ => List.mem_singleton_self _,
      fun _ => Nat.zero_le _, fun k hk => absurd hk List.not_mem_nil, fun _ k hk => ?_,
      List.Pairwise.nil, fun a ha => absurd ha List.not_mem_nil, fun hended => by cases hended⟩
    · exact List.find?_cons_of_pos (decide_eq_true rfl)
    · have hthere : mapGet kt m k ≠ none := by
        rw [← Refines.absMap_eq href k]
        exact hk ht (List.mem_singleton_self _)
      obtain ⟨e, hf, hkey⟩ := exists_entry href' hlen hthere
      refine ⟨e, hf, hkey, fun hlt => absurd hlt (Nat.not_lt_zero e), fun x hx hlt => ?_⟩
      have hhti : ht.hti = s.ht.hti := hlong.1
      have hlt' : x < ht.hti := hlt
      omega

/-! ### A call between -/

theorem Walk.Faithful.called (h : w.Faithful kt) (st : St) : (w.called st).Faithful kt where
  distinct := h.distinct
  current := h.current
  complete := by
    intro hended k hk
    have hended' : w.ended = true := hended
    refine h.complete hended' k ?_
    simpa only [Walk.Steady, Walk.called, hended', if_true] using hk

/-- **`ht_cas` and `ht_remove`** between. -/
theorem Walk.Holds.called (hkt : kt.Lawful) (h : w.Holds kt m i pos) (hc : c.Changes)
    (hvalid : c.Valid) (hrun : call kt fuel w.st c = some (r, s')) :
    (w.called s').Holds kt (mapAfter kt m c) i pos := by
  have hsys : sys kt fuel w.st c = some s' := by
    rw [sys, hrun]
    rfl
  have hcalled := sys_called hkt h.refines h.inv hvalid hsys
  have hp := hcalled.persists
  have hi := h.lt_len
  refine ⟨hcalled.refines, (sys_step h.inv hsys).1, hcalled.nonNull h.nonNull, ?_,
    fun hended => ?_, fun hended => ?_, fun k hk => ?_, fun hended k hk => ?_,
    h.faithful.called s'⟩
  · show s'.iters.find? _ = _
    rw [call_iters hc hrun]
    exact h.iter
  · have hended' : w.ended = false := hended
    show s'.ht ∈ if w.ended then w.watched else w.watched ++ [s'.ht]
    rw [hended']
    exact List.mem_append_right _ (List.mem_singleton_self _)
  · show pos ≤ 2 ^ (s'.ht.tables i).scale
    rw [hp.scale i hi]
    exact h.pos_le hended
  · obtain ⟨e, he, hkey, heq⟩ := h.returned k hk
    have hsame : s'.ht.key i e = w.st.ht.key i e := hp.key i e hi hkey
    exact ⟨e, he, hp.key_ne hi hkey, (congrArg kt.keyOf hsame).trans heq⟩
  · have hended' : w.ended = false := hended
    have hsteady : w.Steady kt k := by
      intro t ht
      refine hk t ?_
      show t ∈ if w.ended then w.watched else w.watched ++ [s'.ht]
      rw [hended']
      exact List.mem_append_left _ ht
    obtain ⟨e, hf, hkey, hret, hpass⟩ := h.kept hended' k hsteady
    have hthere : mapGet kt m k ≠ none := by
      rw [← Refines.absMap_eq h.refines k]
      exact hsteady _ (h.seen hended')
    refine ⟨e, hp.find_some hi hf hkey, hp.key_ne hi hkey, hret, fun x hx hlt => ?_⟩
    rcases Nat.lt_or_ge x w.st.ht.hti with hxh | hhx
    · exact hp.passed (hxh.trans h.inv.hti_lt) (hpass x hx hxh)
    · exact hcalled.passed k hthere x hhx hlt

/-! ### `ht_iter_next` -/

theorem keys_answered (w : Walk) (a : Option (ℕ × ℕ)) (st : St) :
    (w.answered a st).keys = w.keys ++ (a.map Prod.fst).toList := by
  cases a <;> simp [Walk.keys, Walk.answered]

theorem ended_answered (w : Walk) (a : Option (ℕ × ℕ)) (st : St) :
    (w.answered a st).ended = (w.ended || a.isNone) := by
  simp [Walk.ended, Walk.answered]

/-- An entry with the key of an earlier one is that one. -/
theorem entry_unique (hkt : kt.Lawful) {ht : Ht} {b e e' : ℕ} (h : Refines kt ht b m)
    (hi : i < ht.len) (hkey : ht.key i e ≠ doesNotExist) (hkey' : ht.key i e' ≠ doesNotExist)
    (hsame : kt.Same (kt.keyOf (ht.key i e)) (kt.keyOf (ht.key i e'))) : e = e' := by
  have hf := (h.inv.find_iff hkt hi hkey).mpr hsame
  rw [h.inv.found i e' hi hkey'] at hf
  exact (Option.some.inj hf).symm

/-- The end is answered. -/
theorem Walk.Holds.finished (hkt : kt.Lawful) (h : w.Holds kt m i pos) (hended : w.ended = false)
    (hdone : ∀ x < 2 ^ (w.st.ht.tables i).scale, pos ≤ x → PassesOver kt w.st.ht i x) (st : St) :
    (w.answered none st).Faithful kt where
  distinct := by
    rw [keys_answered, Option.map_none, Option.toList_none, List.append_nil]
    exact h.faithful.distinct
  current := by
    intro a ha k v hkv
    rcases List.mem_append.mp ha with ha | ha
    · exact h.faithful.current a ha k v hkv
    · obtain rfl := List.mem_singleton.mp ha
      cases hkv
  complete := by
    intro _ k hk
    have hsteady : w.Steady kt k := hk
    obtain ⟨e, hf, hkey, hret, hpass⟩ := h.kept hended k hsteady
    rw [keys_answered, Option.map_none, Option.toList_none, List.append_nil]
    apply hret
    by_contra hpos
    have hthere : mapGet kt m k ≠ none := by
      rw [← Refines.absMap_eq h.refines k]
      exact hsteady _ (h.seen hended)
    have he : e < 2 ^ (w.st.ht.tables i).scale := h.refines.inv.find_lt h.lt_len hf
    exact not_passesOver hkt h.refines h.nonNull h.lt_len hf hkey hthere hpass
      (hdone e he (not_lt.mp hpos))

/-- A key is answered. -/
theorem Walk.Holds.found (hkt : kt.Lawful) {e v : ℕ} (h : w.Holds kt m i pos)
    (hended : w.ended = false) (hle : pos ≤ e) (hkey : w.st.ht.key i e ≠ doesNotExist)
    (hget : mapGet kt m (kt.keyOf (w.st.ht.key i e)) = some v) (hlegal : Legal v) (st : St) :
    (w.answered (some (kt.keyOf (w.st.ht.key i e), v)) st).Faithful kt where
  distinct := by
    rw [keys_answered]
    refine List.pairwise_append.mpr ⟨h.faithful.distinct, List.pairwise_singleton .., ?_⟩
    intro l hl k hk hsame
    obtain rfl := List.mem_singleton.mp hk
    obtain ⟨e', he', hkey', rfl⟩ := h.returned l hl
    have heq := entry_unique hkt h.refines h.lt_len hkey' hkey hsame
    omega
  current := by
    intro a ha k u hku
    rcases List.mem_append.mp ha with ha | ha
    · exact h.faithful.current a ha k u hku
    · obtain rfl := List.mem_singleton.mp ha
      cases hku
      exact ⟨(Refines.absMap_eq h.refines _).trans hget, hlegal⟩
  complete := by
    intro hended'
    rw [ended_answered, hended] at hended'
    cases hended'

/-- **`ht_iter_next`** where it does not come to an entry that it misreads. -/
theorem Walk.Holds.next (hkt : kt.Lawful) (h : w.Holds kt m i pos) (hended : w.ended = false)
    (hclear : Clear kt w.st.ht i pos) :
    ∃ r w' pos', Answers (Walk.exec kt) w .next r w' ∧ w'.Holds kt m i pos' := by
  obtain ⟨⟨key, val⟩, pos', hrun, hfinds⟩ :=
    iterNext_spec hkt h.refines h.lt_len (h.pos_le hended) hclear
  set st := w.st.moved ⟨w.id, i, pos⟩ ⟨w.id, i, pos'⟩ with hst
  have hinv : Inv st := h.inv.moved (iter_mem h.iter) rfl
  have hiter : st.iter w.id = some ⟨w.id, i, pos'⟩ := List.find?_cons_of_pos (decide_eq_true rfl)
  have hans : Answers (Walk.exec kt) w .next val
      (w.answered (if val = doesNotExist then none else some (key, val)) st) := by
    refine ⟨2 ^ (w.st.ht.tables i).scale - pos + 2 ^ (w.st.ht.tables i).scale + w.st.ht.len + 2,
      fun fuel hfuel => ?_⟩
    simp only [Walk.exec, htIterNextKey, h.iter, hrun fuel hfuel, Option.map_some]
    rfl
  refine ⟨val, _, pos', hans, ?_⟩
  cases hfinds with
  | done hdone =>
    rw [if_pos rfl]
    have hend : (w.answered none st).ended = true := by
      rw [ended_answered, Option.isNone_none, Bool.or_true]
    have hnot : ∀ {p : Prop}, (w.answered none st).ended = false → p := by
      intro p hfalse
      rw [hend] at hfalse
      cases hfalse
    refine ⟨h.refines, hinv, h.nonNull, hiter, hnot, hnot, fun k hk => ?_, hnot,
      h.finished hkt hended hdone st⟩
    rw [keys_answered, Option.map_none, Option.toList_none, List.append_nil] at hk
    obtain ⟨e, he, hentry⟩ := h.returned k hk
    exact ⟨e, he.trans_le ((h.pos_le hended).trans (Nat.le_succ _)), hentry⟩
  | @entry e _ hle hlt hbefore hkey hget hlegal =>
    rw [if_neg hlegal.1]
    refine ⟨h.refines, hinv, h.nonNull, hiter, fun _ => h.seen hended, fun _ => hlt,
      fun k hk => ?_, fun _ k hk => ?_, h.found hkt hended hle hkey hget hlegal st⟩
    · rw [keys_answered] at hk
      rcases List.mem_append.mp hk with hk | hk
      · obtain ⟨e', he', hentry⟩ := h.returned k hk
        exact ⟨e', by omega, hentry⟩
      · obtain rfl := List.mem_singleton.mp hk
        exact ⟨e, Nat.lt_succ_self e, hkey, rfl⟩
    · have hsteady : w.Steady kt k := hk
      obtain ⟨e', hf, hkey', hret, hpass⟩ := h.kept hended k hsteady
      refine ⟨e', hf, hkey', fun he' => ?_, hpass⟩
      rw [keys_answered]
      rcases Nat.lt_or_ge e' pos with hbeforepos | hpos
      · obtain ⟨l, hl, hsame⟩ := hret hbeforepos
        exact ⟨l, List.mem_append_left _ hl, hsame⟩
      rcases Nat.eq_or_lt_of_le (Nat.le_of_lt_succ he') with rfl | hlt'
      · refine ⟨_, List.mem_append_right _ (List.mem_singleton_self _), ?_⟩
        exact (h.refines.inv.find_iff hkt h.lt_len hkey').mp hf
      · -- the loop went over the entry
        have hthere : mapGet kt m k ≠ none := by
          rw [← Refines.absMap_eq h.refines k]
          exact hsteady _ (h.seen hended)
        exact absurd (hbefore e' hlt' hpos)
          (not_passesOver hkt h.refines h.nonNull h.lt_len hf hkey' hthere hpass)

end Invariant

/-! ## Whole runs -/

section Runs

variable {kt : KeyType} {w : Walk} {fuel : ℕ} {cs : List Call}
  {es : List (Iteration.Event Call)}

/-- **One event.** -/
theorem Walk.Holds.step (hkt : kt.Lawful) {m : List (ℕ × ℕ)} {i pos : ℕ}
    (h : w.Holds kt m i pos) {e : Iteration.Event Call} (he : w.Fits kt e) :
    ∃ r w', Answers (Walk.exec kt) w e r w' ∧ ∃ m' pos', w'.Holds kt m' i pos' := by
  cases e with
  | call c =>
    obtain ⟨r, s', fuel, hrun⟩ := call_returns hkt h.refines he.1 he.2
    refine ⟨r, w.called s', ⟨fuel, fun fuel' hle => ?_⟩, _, pos,
      h.called hkt he.1 he.2 (hrun fuel le_rfl)⟩
    simp only [Walk.exec, hrun fuel' hle, Option.map_some]
  | next =>
    obtain ⟨r, w', pos', hans, hw'⟩ := h.next hkt he.1 (he.2 _ h.iter)
    exact ⟨r, w', hans, m, pos', hw'⟩

/-- **Every iteration that does not come to an entry that it misreads.**  The iterator is opened
after any calls, with other iterators open or not, and its `ht_iter_next` calls alternate with
`ht_cas` and `ht_remove` in any order and with any growth and copying.  Every call returns, and the
iteration is faithful at any moment: no key is returned twice, every pair is one of the map at that
moment, and in the end every key has been returned that was there all the time. -/
theorem walk_faithful (hkt : kt.Lawful) (hvalid : ∀ c ∈ cs, c.Valid)
    (hbegun : Walk.begun kt fuel cs = some w)
    (hok : RunMeets (Walk.exec kt) (Walk.Fits kt) w es) :
    RunKeeps (Walk.exec kt) (Walk.Faithful kt) w es := by
  obtain ⟨s, hrun, hopen⟩ := Option.bind_eq_some_iff.mp hbegun
  obtain ⟨⟨id, s'⟩, hbegin, rfl⟩ := Option.map_eq_some_iff.mp hopen
  obtain ⟨href, hinv⟩ := sys_refines hkt hvalid (init_refines kt) init_inv hrun
  have hnn := sys_nonNull hkt hvalid (init_refines kt) init_inv (init_nonNull kt) hrun
  obtain ⟨i, hopened⟩ := Walk.Holds.opened hkt href hinv hnn hbegin
  exact runKeeps_of_step (I := fun w => ∃ m pos, w.Holds kt m i pos)
    (fun _ ⟨_, _, hw⟩ => hw.faithful) (fun _ _ ⟨_, _, hw⟩ he => hw.step hkt he) ⟨_, 0, hopened⟩ hok

/-- The keys 1, …, `n`. -/
def filled (n : ℕ) : List Call := (List.range n).map fun i => .cas (i + 1) expectWhatever (i + 100)

/-- A key for which there is no room in the first table is set, and set again, and some entries
are copied. -/
def copying (key : ℕ) : List (Iteration.Event Call) :=
  List.replicate 2 (.call (.cas key expectWhatever 7))

/-- An entry is read before the copy, a key is removed after it, and the rest is read. -/
def readOn : List (Iteration.Event Call) :=
  [.next] ++ copying 9 ++ [.next, .call (.remove 3)] ++ List.replicate 6 .next

/-- The theorem at integer keys. -/
theorem walk_faithful_readOn : (∀ c ∈ filled 8, c.Valid) ∧
    ∃ w, Walk.begun twoBuckets 40 (filled 8) = some w
      ∧ RunKeeps (Walk.exec twoBuckets) (Walk.Faithful twoBuckets) w readOn := by
  have hvalid : ∀ c ∈ filled 8, c.Valid := by decide
  have hsome : (Walk.begun twoBuckets 40 (filled 8)).isSome = true := by decide +kernel
  have hmeets : ∀ w ∈ Walk.begun twoBuckets 40 (filled 8),
      StepsMeet (stepOf (Walk.exec twoBuckets) 40) (Walk.Fits twoBuckets) w readOn
        ∧ (run (stepOf (Walk.exec twoBuckets) 40) w readOn).isSome = true := by
    decide +kernel
  obtain ⟨w, hbegun⟩ := Option.isSome_iff_exists.mp hsome
  obtain ⟨hok, hrun⟩ := hmeets w hbegun
  have hmeet := runMeets_of_stepsMeet (exec_mono twoBuckets) hok hrun
  have hkt : twoBuckets.Lawful := trivial
  exact ⟨hvalid, w, hbegun, walk_faithful hkt hvalid hbegun hmeet⟩

/-- Keys of which the words have bits of the hash. -/
def tailed : Datatype := { lastDigits with hash := fun _ => 2 ^ 31 }

theorem tailed_lawful : (KeyType.typed tailed).Lawful :=
  have h : lastDigits.Lawful := lastDigits_lawful
  ⟨h.cmp_refl, h.cmp_symm, h.cmp_trans, fun _ _ _ => rfl, h.clone_ne, h.clone_lt, h.clone_cmp⟩

/-- Key 14 is removed before `ht_iter_begin`, and its entry is killed by the copy: `ht_iter_next`
returns it with `TAG_VALUE(TOMBSTONE, TAG1)`.  Where the words have bits of the hash, the copied
entries are passed over, and keys 1 to 4 are never returned. -/
theorem walk_misreads :
    ((KeyType.typed lastDigits).Lawful
      ∧ ∃ w, Walk.begun (.typed lastDigits) 40 (filled 16 ++ [.remove 14]) = some w
      ∧ ¬ RunKeeps (Walk.exec (.typed lastDigits)) (Walk.Faithful (.typed lastDigits)) w
        (copying 17 ++ [.next]))
    ∧ (KeyType.typed tailed).Lawful ∧ ∃ w, Walk.begun (.typed tailed) 40 (filled 8) = some w
      ∧ ¬ RunKeeps (Walk.exec (.typed tailed)) (Walk.Faithful (.typed tailed)) w
        (copying 9 ++ List.replicate 5 .next) := by
  constructor
  · have hsome : (Walk.begun (.typed lastDigits) 40 (filled 16 ++ [.remove 14])).isSome = true := by
      decide +kernel
    have hrun : ∀ w ∈ Walk.begun (.typed lastDigits) 40 (filled 16 ++ [.remove 14]), ∃ w' ∈
        run (stepOf (Walk.exec (.typed lastDigits)) 40) w (copying 17 ++ [.next]),
        ∃ a ∈ w'.answers, a.2 = some (14014, tagValue tombstone) := by
      decide +kernel
    obtain ⟨w, hbegun⟩ := Option.isSome_iff_exists.mp hsome
    obtain ⟨w', hw', a, ha, heq⟩ := hrun w hbegun
    refine ⟨lastDigits_lawful, w, hbegun, fun hkeeps => ?_⟩
    have hfaithful := hkeeps.last (exec_mono (.typed lastDigits)) hw'
    exact absurd (hfaithful.current a ha _ _ heq).2 (by decide)
  · have hsome : (Walk.begun (.typed tailed) 40 (filled 8)).isSome = true := by decide +kernel
    have hrun : ∀ w ∈ Walk.begun (.typed tailed) 40 (filled 8), ∃ w' ∈
        run (stepOf (Walk.exec (.typed tailed)) 40) w (copying 9 ++ List.replicate 5 .next),
        w'.ended = true ∧ w'.Steady (.typed tailed) 1
          ∧ ∀ l ∈ w'.keys, ¬ (KeyType.typed tailed).Same l 1 := by
      unfold Walk.Steady
      decide +kernel
    obtain ⟨w, hbegun⟩ := Option.isSome_iff_exists.mp hsome
    obtain ⟨w', hw', hended, hsteady, hkeys⟩ := hrun w hbegun
    refine ⟨tailed_lawful, w, hbegun, fun hkeeps => ?_⟩
    have hfaithful := hkeeps.last (exec_mono (.typed tailed)) hw'
    obtain ⟨l, hl, hsame⟩ := hfaithful.complete hended 1 hsteady
    exact hkeys l hl hsame

end Runs

end HashtableIter
