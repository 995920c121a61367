/-
# Completing the copies in `ht_iter_begin`

`ht_iter_begin` helps with the copy of one table after the other until it comes to a table
without a successor.  Every single copy ends, but the table behind may have filled up
meanwhile and a table behind that one been appended.

* `helpUntilCopied_spec` — one copy ends;
* `lastTable_spec` — so does the loop, if it comes to the last table, and the map is the same;
* `sys_refines` — the table stands for a finite map in every state of a run with iterators.
-/
import Ssr.HashtableMoves
import Ssr.HashtableReferences

open Interleaving Map Migration Hashtable

namespace HashtableIter

/-! ## One copy -/

section HelpUntilCopied

variable {kt : KeyType} {s s' : Ht} {b i fuel : ℕ} {m : List (ℕ × ℕ)}

theorem helpUntilCopied_mono {fuel' : ℕ} (hle : fuel ≤ fuel')
    (h : helpUntilCopied kt fuel s i = some s') : helpUntilCopied kt fuel' s i = some s' := by
  induction fuel generalizing s fuel' with
  | zero => cases h
  | succ fuel ih =>
    obtain ⟨fuel', rfl⟩ : ∃ x, fuel' = x + 1 := ⟨fuel' - 1, by omega⟩
    have hle' : fuel ≤ fuel' := Nat.le_of_succ_le_succ hle
    simp only [helpUntilCopied] at h ⊢
    cases hhelp : htiHelpCopy kt fuel s i with
    | none =>
      rw [hhelp] at h
      cases h
    | some r =>
      obtain ⟨finished, s₁⟩ := r
      rw [hhelp] at h
      rw [htiHelpCopy_mono hle' hhelp]
      cases finished with
      | true => exact h
      | false => exact ih hle' h

/-- What the copy of table `i` leaves. -/
structure Completed (kt : KeyType) (b i : ℕ) (m : List (ℕ × ℕ)) (s s' : Ht) : Prop where
  refines : Refines kt s' b m
  moves : Moves kt m i s s'
  all : (s'.tables i).numEntriesCopied = 2 ^ (s'.tables i).scale

theorem helpUntilCopied_completed (hkt : kt.Lawful) (h : Refines kt s b m) (hbi : b ≤ i)
    (hlt : i + 1 < s.len) (hrun : helpUntilCopied kt fuel s i = some s') :
    Completed kt b i m s s' := by
  induction fuel generalizing s with
  | zero => cases hrun
  | succ fuel ih =>
    simp only [helpUntilCopied] at hrun
    cases hhelp : htiHelpCopy kt fuel s i with
    | none =>
      rw [hhelp] at hrun
      cases hrun
    | some r =>
      obtain ⟨finished, s₁⟩ := r
      have hon := htiHelpCopy_moves hkt h hbi hlt hhelp
      rw [hhelp] at hrun
      cases finished with
      | true =>
        cases hrun
        exact ⟨hon.refines, hon.moves, hon.all rfl⟩
      | false =>
        have hrest := ih hon.refines (hlt.trans_le hon.moves.persists.len) hrun
        exact ⟨hrest.refines, hon.moves.trans hrest.moves, hrest.all⟩

/-- The table behind holds everything when the copy is done. -/
theorem Completed.retire (h : Completed kt i i m s s') (hlt : i + 1 < s.len) :
    Refines kt s' (i + 1) m :=
  h.refines.retire (hlt.trans_le h.moves.persists.len) h.all

end HelpUntilCopied

/-! ## The loop -/

section LastTable

variable {kt : KeyType} {s s' : Ht} {i j fuel : ℕ} {m : List (ℕ × ℕ)}

theorem lastTable_mono {fuel' : ℕ} (hle : fuel ≤ fuel')
    (h : lastTable kt fuel s i = some (j, s')) : lastTable kt fuel' s i = some (j, s') := by
  induction fuel generalizing s i fuel' with
  | zero => cases h
  | succ fuel ih =>
    obtain ⟨fuel', rfl⟩ : ∃ x, fuel' = x + 1 := ⟨fuel' - 1, by omega⟩
    have hle' : fuel ≤ fuel' := Nat.le_of_succ_le_succ hle
    simp only [lastTable] at h ⊢
    split_ifs at h ⊢ with hlt
    · cases hhelp : helpUntilCopied kt fuel s i with
      | none =>
        rw [hhelp] at h
        cases h
      | some s₁ =>
        rw [hhelp] at h
        rw [helpUntilCopied_mono hle' hhelp]
        exact ih hle' h
    · exact h

/-- **`ht_iter_begin` leaves the map as it is**, for readers that start at table `b` and for
those that start where it came to. -/
theorem lastTable_refines (hkt : kt.Lawful) {b : ℕ} (hb : Refines kt s b m) (hbi : b ≤ i)
    (h : Refines kt s i m) (hrun : lastTable kt fuel s i = some (j, s')) :
    Refines kt s' b m ∧ Refines kt s' j m ∧ Persists s s' ∧ (NonNull kt s → NonNull kt s') := by
  induction fuel generalizing s i with
  | zero => cases hrun
  | succ fuel ih =>
    simp only [lastTable] at hrun
    split_ifs at hrun with hlt
    · cases hhelp : helpUntilCopied kt fuel s i with
      | none =>
        rw [hhelp] at hrun
        cases hrun
      | some s₁ =>
        rw [hhelp] at hrun
        have hcompleted := helpUntilCopied_completed hkt hb hbi hlt hhelp
        have hown := helpUntilCopied_completed hkt h le_rfl hlt hhelp
        obtain ⟨hb', hj, hpersists, hnull⟩ :=
          ih hcompleted.refines (hbi.trans (Nat.le_succ i)) (hown.retire hlt) hrun
        exact ⟨hb', hj, hown.moves.persists.trans hpersists,
          fun hnn => hnull (hown.moves.nonNull hnn)⟩
    · cases hrun
      exact ⟨hb, h, Persists.refl _, id⟩

end LastTable

/-! ## Whole runs -/

/-- The calls that the assertions of the table allow. -/
def Call.Valid : Call → Prop
  | .cas key expected new => (Hashtable.Call.cas key expected new).Valid
  | .remove key => (Hashtable.Call.remove key).Valid
  | _ => True

instance : DecidablePred Call.Valid
  | .cas key expected new => inferInstanceAs (Decidable (Hashtable.Call.cas key expected new).Valid)
  | .remove key => inferInstanceAs (Decidable (Hashtable.Call.remove key).Valid)
  | .iterBegin _ | .iterNext _ | .iterFree _ | .rcuUpdate => isTrue trivial

/-- What a call makes of a finite map. -/
def mapAfter (kt : KeyType) (m : List (ℕ × ℕ)) : Call → List (ℕ × ℕ)
  | .cas key expected new => (mapCall kt m (.cas key expected new)).2
  | .remove key => (mapCall kt m (.remove key)).2
  | _ => m

section Runs

variable {kt : KeyType} {fuel key expected new id : ℕ} {s s' : St} {m : List (ℕ × ℕ)} {c : Call}

/-- `ht_iter_next` at rest does not change the table. -/
theorem iterNext_still {r : ℕ × ℕ} {pos pos' i b : ℕ} {ht ht' : Ht} (h : Refines kt ht b m)
    (hi : i < ht.len) (hrun : iterNext kt fuel ht i pos = some (r, pos', ht')) : ht' = ht := by
  induction fuel generalizing pos with
  | zero => cases hrun
  | succ fuel ih =>
    simp only [iterNext] at hrun
    split at hrun
    · cases hrun
    · rename_i idx _
      split_ifs at hrun with hend hcopied
      · cases hrun
        rfl
      · have hnext : i + 1 < ht.len := by
          refine h.inv.next i idx hi ?_
          rw [hcopied]
          exact isTagged_tagValue _
        split at hrun
        · cases hrun
        · rename_i val ht₁ hget
          obtain rfl := htiGet_still h hnext hget
          split_ifs at hrun with hval
          · exact ih hrun
          · cases hrun
            rfl
      · cases hrun
        rfl

/-- **What a call of a run leaves.** -/
theorem sys_called (hkt : kt.Lawful) (h : Refines kt s.ht s.ht.hti m) (hinv : Inv s)
    (hc : c.Valid) (hstep : sys kt fuel s c = some s') :
    Called kt m (mapAfter kt m c) s.ht s'.ht := by
  obtain ⟨⟨r, s₁⟩, hcall, rfl⟩ := Option.map_eq_some_iff.mp hstep
  have hsame : Called kt m m s.ht s.ht := Called.of_hti h (Persists.refl _) id rfl
  cases c with
  | cas key expected new =>
    obtain ⟨hk, hnew, hexp⟩ := hc
    have hchain : Hashtable.htCas kt fuel s.ht key expected new = some (r, s₁.ht) := by
      rw [← htCas_chain, show htCas kt fuel s key expected new = some (r, s₁) from hcall]
      rfl
    have hcalled := htCas_called hkt h hk hexp hnew hchain
    unfold mapCas at hcalled
    rw [if_neg hnew.1] at hcalled
    exact hcalled
  | remove key =>
    obtain ⟨⟨r', ht⟩, hremove, heq⟩ := Option.map_eq_some_iff.mp hcall
    obtain ⟨rfl, rfl⟩ := Prod.mk.inj heq
    exact htRemove_called hkt h hc hremove
  | iterBegin key =>
    simp only [call, htIterBegin] at hcall
    split at hcall
    · cases hcall
    · rename_i i ht hlast
      split_ifs at hcall
      cases hcall
      obtain ⟨href, -, hpersists, hnull⟩ := lastTable_refines hkt h le_rfl h hlast
      obtain ⟨hlong, -, -⟩ := lastTable_spec hlast h.inv.base_lt
      refine Called.of_hti ?_ hpersists hnull hlong.1
      show Refines kt ht ht.hti m
      rw [hlong.1]
      exact href
  | iterNext id =>
    simp only [call, htIterNext] at hcall
    split at hcall
    · cases hcall
    · rename_i it hiter
      obtain ⟨⟨kv, pos, ht⟩, hnext, heq⟩ := Option.map_eq_some_iff.mp hcall
      obtain rfl := iterNext_still h (hinv.iters_lt it (iter_mem hiter)) hnext
      cases heq
      exact hsame
  | iterFree id =>
    simp only [call, htIterFree] at hcall
    split at hcall <;> cases hcall
    exact hsame
  | rcuUpdate =>
    cases hcall
    exact hsame

/-- **The table stands for a finite map**, in every run with iterators. -/
theorem sys_refines (hkt : kt.Lawful) {cs : List Call} (hvalid : ∀ c ∈ cs, c.Valid)
    (h : Refines kt s.ht s.ht.hti m) (hinv : Inv s) (hrun : run (sys kt fuel) s cs = some s') :
    Refines kt s'.ht s'.ht.hti (cs.foldl (mapAfter kt) m) ∧ Inv s' := by
  induction cs generalizing s m with
  | nil =>
    cases hrun
    exact ⟨h, hinv⟩
  | cons c cs ih =>
    obtain ⟨s₁, hstep, hrest⟩ := run_cons_eq_some.mp hrun
    have hcalled := sys_called hkt h hinv (hvalid c List.mem_cons_self) hstep
    exact ih (fun c' hc' => hvalid c' (List.mem_cons_of_mem c hc')) hcalled.refines
      (sys_step hinv hstep).1 hrest

theorem init_refines (kt : KeyType) : Refines kt init.ht init.ht.hti [] := htAlloc_refines kt

end Runs

end HashtableIter
