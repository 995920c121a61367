/-
# When the tables under an iterator stay alive

An iterator holds a reference to its own table only.  The counts are exact: a table has
one reference from the chain, while it is in it, and one from every iterator that is open
on it.  So the tables that are passed to `hti_defer_free` lie before `ht->hti`, and an open
iterator can reach one of them exactly when some call has given up the last reference to a
table behind the iterator's.

* `Longer` — what the functions of the table do to the chain;
* `Inv` — the reference counts are exact;
* `safe_iff_fits` — whole runs.
-/
import Ssr.HashtableIter

open Interleaving Map Hashtable

namespace HashtableIter

/-! ## The chain -/

section Chain

variable {kt : KeyType} {fuel i j e n key keyHash expected new : ℕ} {ht ht' ht'' : Ht}

/-- The chain keeps its first table and may have got longer. -/
def Longer (ht ht' : Ht) : Prop := ht'.hti = ht.hti ∧ ht.len ≤ ht'.len

/-- No change. -/
theorem Longer.refl (ht : Ht) : Longer ht ht := ⟨rfl, le_rfl⟩

/-- One change after the other. -/
theorem Longer.trans (h : Longer ht ht') (h' : Longer ht' ht'') : Longer ht ht'' :=
  ⟨h'.1.trans h.1, h.2.trans h'.2⟩

/-- `hti_start_copy` appends tables only. -/
theorem htiStartCopy_longer (ht : Ht) (i : ℕ) : Longer ht (htiStartCopy ht i) := by
  unfold htiStartCopy
  split
  · exact Longer.refl _
  · exact ⟨rfl, Nat.le_succ _⟩

/-- A key that is copied appends none. -/
theorem withKey_longer (ht : Ht) (j f w : ℕ) : Longer ht (ht.withKey j f w) := by
  unfold Ht.withKey
  split
  · exact ⟨rfl, le_rfl⟩
  · exact Longer.refl _

/-- `hti_copy_entry` appends tables only. -/
theorem htiCopyEntry_longer {did : Bool} (h : htiCopyEntry kt fuel ht i e keyHash j = some (did, ht')) :
    Longer ht ht' := by
  induction fuel generalizing ht j keyHash with
  | zero => cases h
  | succ fuel ih =>
    simp only [htiCopyEntry] at h
    split at h
    · cases h
      exact Longer.refl _
    split at h
    · cases h
      exact ⟨rfl, le_rfl⟩
    split at h
    · cases h
      exact ⟨rfl, le_rfl⟩
    split at h
    · -- no room in table `j`
      split at h
      · have hrest := ih h
        exact hrest
      · have hstart := htiStartCopy_longer (ht.setVal i e (tagValue (ht.val i e))) j
        exact Longer.trans hstart (ih h)
    · rename_i f _
      have hkey := withKey_longer (ht.setVal i e (tagValue (ht.val i e))) j f
        ((ht.setVal i e (tagValue (ht.val i e))).key i e)
      split at h
      · -- the key came into a dead entry
        refine Longer.trans hkey (Longer.trans ?_ (ih h))
        split
        · exact ⟨rfl, le_rfl⟩
        · exact Longer.refl _
      · refine Longer.trans hkey ?_
        split at h <;> cases h <;> exact ⟨rfl, le_rfl⟩

/-- So does a stride of it. -/
theorem htiCopyEntries_longer {r : ℕ} (h : htiCopyEntries kt fuel i ht e n j = some (r, ht')) :
    Longer ht ht' := by
  induction n generalizing ht e j with
  | zero =>
    cases h
    exact Longer.refl _
  | succ n ih =>
    simp only [htiCopyEntries] at h
    split at h
    · cases h
    · rename_i did ht₁ hcopy
      exact (htiCopyEntry_longer hcopy).trans (ih h)

/-- So does `hti_help_copy`. -/
theorem htiHelpCopy_longer {finished : Bool} (h : htiHelpCopy kt fuel ht i = some (finished, ht')) :
    Longer ht ht' := by
  simp only [htiHelpCopy] at h
  split at h
  · cases h
    exact Longer.refl _
  · obtain ⟨⟨r, ht₁⟩, hcopied, heq⟩ := Option.map_eq_some_iff.mp h
    have hlong : Longer ht ht₁ := by
      split at hcopied
      · exact htiCopyEntries_longer hcopied
      · have hentries := htiCopyEntries_longer hcopied
        exact hentries
    simp only at heq
    split at heq <;> cases heq
    · exact hlong
    · exact ⟨hlong.1, hlong.2⟩

/-- So does `hti_cas`. -/
theorem htiCas_longer {r : ℕ} (h : htiCas kt fuel ht i key keyHash expected new = some (r, ht')) :
    Longer ht ht' := by
  rcases htiCas_cases h with ⟨-, rfl⟩ | ⟨e, -, rfl | ⟨ht₁, hht₁, hend⟩⟩
  · split
    · exact Longer.refl _
    · exact htiStartCopy_longer ht i
  · exact Longer.refl _
  · have hlong : Longer ht ht₁ := by
      rw [hht₁]
      split
      · exact ⟨rfl, le_rfl⟩
      · exact Longer.refl _
    refine hlong.trans ?_
    rcases hend with ⟨-, -, rfl⟩ | ⟨-, -, did, ht₂, hcopy, rfl⟩ | ⟨-, rfl | ⟨v, rfl | ⟨c, rfl⟩⟩⟩
    · exact Longer.refl _
    · have hcopied := htiCopyEntry_longer hcopy
      cases did
      · exact hcopied
      · exact ⟨hcopied.1, hcopied.2⟩
    · exact Longer.refl _
    · exact ⟨rfl, le_rfl⟩
    · exact ⟨rfl, le_rfl⟩

/-- So does the loop of `ht_cas`. -/
theorem casLoop_longer {r : ℕ} (h : casLoop kt fuel ht i key expected new = some (r, ht')) :
    Longer ht ht' := by
  induction fuel generalizing ht i with
  | zero => cases h
  | succ fuel ih =>
    simp only [casLoop] at h
    split at h
    · cases h
    · rename_i old ht₁ hcas
      have hlong := htiCas_longer hcas
      split at h
      · exact hlong.trans (ih h)
      · cases h
        exact hlong

/-- So does `hti_get`. -/
theorem htiGet_longer {r : ℕ} (h : htiGet kt fuel ht i key keyHash = some (r, ht')) :
    Longer ht ht' := by
  induction fuel generalizing ht i with
  | zero => cases h
  | succ fuel ih =>
    simp only [htiGet] at h
    split at h
    · split at h
      · exact ih h
      · cases h
        exact Longer.refl _
    · split at h
      · cases h
        exact Longer.refl _
      · split at h
        · split at h
          · exact ih h
          · split at h
            · cases h
            · rename_i did ht₁ hcopy
              have hcopied := htiCopyEntry_longer hcopy
              refine hcopied.trans (Longer.trans ?_ (ih h))
              split
              · exact ⟨rfl, le_rfl⟩
              · exact Longer.refl _
        · cases h
          exact Longer.refl _

/-- So does the inner loop of `ht_iter_begin`. -/
theorem helpUntilCopied_longer (h : helpUntilCopied kt fuel ht i = some ht') : Longer ht ht' := by
  induction fuel generalizing ht with
  | zero => cases h
  | succ fuel ih =>
    simp only [helpUntilCopied] at h
    split at h
    · cases h
    · rename_i hhelp
      cases h
      exact htiHelpCopy_longer hhelp
    · rename_i hhelp
      exact (htiHelpCopy_longer hhelp).trans (ih h)

/-- `ht_iter_begin` comes to the last table. -/
theorem lastTable_spec (h : lastTable kt fuel ht i = some (j, ht')) (hi : i < ht.len) :
    Longer ht ht' ∧ i ≤ j ∧ j + 1 = ht'.len := by
  induction fuel generalizing ht i with
  | zero => cases h
  | succ fuel ih =>
    simp only [lastTable] at h
    split at h
    · rename_i hnext
      split at h
      · cases h
      · rename_i ht₁ hhelp
        have hlong := helpUntilCopied_longer hhelp
        obtain ⟨hlong', hle, hlast⟩ := ih h (hnext.trans_le hlong.2)
        exact ⟨hlong.trans hlong', (Nat.le_succ i).trans hle, hlast⟩
    · cases h
      exact ⟨Longer.refl _, le_rfl, by omega⟩

/-- So does `ht_iter_next`. -/
theorem iterNext_longer {r : ℕ × ℕ} {pos pos' : ℕ}
    (h : iterNext kt fuel ht i pos = some (r, pos', ht')) : Longer ht ht' := by
  induction fuel generalizing ht pos with
  | zero => cases h
  | succ fuel ih =>
    simp only [iterNext] at h
    split at h
    · cases h
    · split at h
      · cases h
        exact Longer.refl _
      · split at h
        · split at h
          · cases h
          · rename_i hget
            have hlong := htiGet_longer hget
            split at h
            · exact hlong.trans (ih h)
            · cases h
              exact hlong
        · cases h
          exact Longer.refl _

end Chain

/-! ## The reference counts -/

section Counts

variable {s s' : St} {i j : ℕ} {ht : Ht} {it it' : Iter}

/-- The number of iterators that are open on table `j`. -/
def openOn (iters : List Iter) (j : ℕ) : ℕ := iters.countP fun it => it.hti = j

/-- The reference counts are exact, and the tables without references have been freed. -/
structure Inv (s : St) : Prop where
  hti_lt : s.ht.hti < s.ht.len
  count : ∀ j, s.refCount j = (if s.ht.hti ≤ j then 1 else 0) + (openOn s.iters j : ℤ)
  iters_lt : ∀ it ∈ s.iters, it.hti < s.ht.len
  freed_iff : ∀ j, j ∈ s.freed ↔ s.refCount j = 0

/-- The table of an open iterator has one. -/
theorem openOn_pos {iters : List Iter} (h : it ∈ iters) : 0 < openOn iters it.hti :=
  List.countP_pos_iff.mpr ⟨it, h, decide_eq_true rfl⟩

/-- A table without open iterators is not that of one. -/
theorem ne_of_openOn_zero {iters : List Iter} (h : openOn iters j = 0) (hit : it ∈ iters) :
    it.hti ≠ j := by
  rintro rfl
  have := openOn_pos hit
  omega

/-- Giving up one iterator. -/
theorem openOn_erase {iters : List Iter} (h : it ∈ iters) (j : ℕ) :
    openOn iters j = openOn (iters.erase it) j + if it.hti = j then 1 else 0 := by
  have hperm := (List.perm_cons_erase h).countP_eq fun x => decide (x.hti = j)
  rw [openOn, hperm, List.countP_cons]
  simp only [decide_eq_true_eq]
  rfl

/-- Only tables before the first one are released. -/
theorem Inv.freed_lt (h : Inv s) (hj : j ∈ s.freed) : j < s.ht.hti := by
  have hzero := (h.freed_iff j).mp hj
  rw [h.count j] at hzero
  by_contra hge
  rw [if_pos (not_lt.mp hge)] at hzero
  omega

/-- An open iterator keeps its own table. -/
theorem Inv.own_not_freed (h : Inv s) (hit : it ∈ s.iters) : it.hti ∉ s.freed := by
  intro hmem
  have hzero := (h.freed_iff _).mp hmem
  have hpos := openOn_pos hit
  rw [h.count] at hzero
  split at hzero <;> omega

/-- The last reference to a table that is still in the chain is that of the chain. -/
theorem Inv.openOn_zero (h : Inv s) (hj : s.ht.hti ≤ j) (hone : s.refCount j = 1) :
    openOn s.iters j = 0 := by
  rw [h.count j, if_pos hj] at hone
  omega

/-! ### The chain grows -/

/-- A change of the tables keeps the counts of references. -/
theorem Inv.setHt (h : Inv s) (hl : Longer s.ht ht) : Inv { s with ht := ht } where
  hti_lt := by
    show ht.hti < ht.len
    rw [hl.1]
    exact h.hti_lt.trans_le hl.2
  count := fun j => by
    show s.refCount j = (if ht.hti ≤ j then 1 else 0) + _
    rw [hl.1]
    exact h.count j
  iters_lt := fun it hit => (h.iters_lt it hit).trans_le hl.2
  freed_iff := h.freed_iff

/-- It closes and releases nothing. -/
theorem Inv.safe_setHt (h : Inv s) (hl : Longer s.ht ht) :
    St.Safe { s with ht := ht } ↔ s.Safe := by
  constructor
  · intro hs it hit j hle hlt
    exact hs it hit j hle (hlt.trans_le hl.2)
  · intro hs it hit j hle _ hmem
    exact hs it hit j hle ((h.freed_lt hmem).trans h.hti_lt) hmem

/-! ### A reference is given up -/

/-- `hti_release` gives up one reference. -/
theorem htiRelease_refCount (s : St) (i j : ℕ) :
    (s.htiRelease i).refCount j = s.refCount j - if i = j then 1 else 0 := by
  by_cases hij : i = j
  · subst hij
    rw [if_pos rfl]
    exact Function.update_self _ _ _
  · rw [if_neg hij, sub_zero]
    exact Function.update_of_ne (Ne.symm hij) _ _

/-- It frees the table with its last reference. -/
theorem mem_htiRelease_freed (s : St) (i j : ℕ) :
    j ∈ (s.htiRelease i).freed ↔ j ∈ s.freed ∨ (j = i ∧ s.refCount i = 1) := by
  by_cases hone : s.refCount i = 1
  · have hfreed : (s.htiRelease i).freed = i :: s.freed := if_pos (by omega)
    rw [hfreed, List.mem_cons]
    tauto
  · have hfreed : (s.htiRelease i).freed = s.freed := if_neg (by omega)
    rw [hfreed]
    tauto

/-- The first table is unlinked. -/
def St.unlink (s : St) : St :=
  { s with ht := { s.ht with hti := s.ht.hti + 1 } }.htiRelease s.ht.hti

/-- The first table is unlinked, and its reference given up. -/
theorem Inv.unlink (h : Inv s) (hnext : s.ht.hti + 1 < s.ht.len) : Inv s.unlink where
  hti_lt := hnext
  count := fun j => by
    have hcount := h.count j
    have hrel := htiRelease_refCount { s with ht := { s.ht with hti := s.ht.hti + 1 } } s.ht.hti j
    show s.unlink.refCount j = (if s.ht.hti + 1 ≤ j then 1 else 0) + (openOn s.iters j : ℤ)
    rw [St.unlink, hrel]
    show s.refCount j - _ = _
    rw [hcount]
    split_ifs <;> omega
  iters_lt := h.iters_lt
  freed_iff := fun j => by
    have hrel := htiRelease_refCount { s with ht := { s.ht with hti := s.ht.hti + 1 } } s.ht.hti j
    rw [St.unlink, mem_htiRelease_freed, hrel]
    show j ∈ s.freed ∨ (j = s.ht.hti ∧ s.refCount s.ht.hti = 1) ↔ s.refCount j - _ = 0
    rw [h.freed_iff]
    by_cases hj : s.ht.hti = j
    · subst hj
      have hcount := h.count s.ht.hti
      rw [if_pos le_rfl] at hcount
      rw [if_pos rfl]
      constructor
      · rintro (hzero | ⟨-, hone⟩) <;> omega
      · intro hone
        exact Or.inr ⟨rfl, by omega⟩
    · rw [if_neg hj, sub_zero]
      constructor
      · rintro (hzero | ⟨heq, -⟩)
        · exact hzero
        · exact absurd heq.symm hj
      · exact Or.inl

/-- Unlinking the first table is safe when that is not the last reference to it, or no
iterator is open on a table before it. -/
theorem Inv.safe_unlink (h : Inv s) (hs : s.Safe) :
    s.unlink.Safe ↔ s.Droppable s.ht.hti := by
  constructor
  · intro hsafe hone it hit
    by_contra hlt
    have hmem : s.ht.hti ∈ s.unlink.freed := (mem_htiRelease_freed _ _ _).mpr (Or.inr ⟨rfl, hone⟩)
    exact hsafe it hit s.ht.hti (not_le.mp hlt).le h.hti_lt hmem
  · intro hdrop it hit j hle hlt hmem
    rcases (mem_htiRelease_freed _ _ _).mp hmem with hmem | ⟨rfl, hone⟩
    · exact hs it hit j hle hlt hmem
    · have hne := ne_of_openOn_zero (h.openOn_zero le_rfl hone) hit
      exact hne (le_antisymm hle (hdrop hone it hit))

/-- An iterator is closed. -/
def St.close (s : St) (it : Iter) : St :=
  { s.htiRelease it.hti with iters := s.iters.erase it }

/-- An iterator is closed. -/
theorem Inv.close (h : Inv s) (hit : it ∈ s.iters) : Inv (s.close it) where
  hti_lt := h.hti_lt
  count := fun j => by
    have hcount := h.count j
    rw [openOn_erase hit j] at hcount
    show (s.htiRelease it.hti).refCount j
      = (if s.ht.hti ≤ j then 1 else 0) + (openOn (s.iters.erase it) j : ℤ)
    rw [htiRelease_refCount, hcount]
    split_ifs <;> push_cast <;> omega
  iters_lt := fun it' hit' => h.iters_lt it' (List.mem_of_mem_erase hit')
  freed_iff := fun j => by
    show j ∈ (s.htiRelease it.hti).freed ↔ (s.htiRelease it.hti).refCount j = 0
    rw [mem_htiRelease_freed, htiRelease_refCount, h.freed_iff]
    by_cases hj : it.hti = j
    · subst hj
      have hown := h.own_not_freed hit
      rw [h.freed_iff] at hown
      rw [if_pos rfl]
      constructor
      · rintro (hzero | ⟨-, hone⟩)
        · exact absurd hzero hown
        · omega
      · intro hone
        exact Or.inr ⟨rfl, by omega⟩
    · rw [if_neg hj, sub_zero]
      constructor
      · rintro (hzero | ⟨heq, -⟩)
        · exact hzero
        · exact absurd heq.symm hj
      · exact Or.inl

/-- Closing an iterator is safe under the same condition. -/
theorem Inv.safe_close (h : Inv s) (hs : s.Safe) (hit : it ∈ s.iters) :
    (s.close it).Safe ↔ s.Droppable it.hti := by
  have hlt := h.iters_lt it hit
  constructor
  · intro hsafe hone it' hit'
    by_contra hbefore
    have hne : it' ≠ it := by
      rintro rfl
      exact hbefore le_rfl
    have hmem : it.hti ∈ (s.close it).freed := (mem_htiRelease_freed _ _ _).mpr (Or.inr ⟨rfl, hone⟩)
    have hrest : it' ∈ (s.close it).iters := (List.mem_erase_of_ne hne).mpr hit'
    exact hsafe it' hrest it.hti (not_le.mp hbefore).le hlt hmem
  · intro hdrop it' hit' j hle hj hmem
    have hmem' : it' ∈ s.iters := List.mem_of_mem_erase hit'
    rcases (mem_htiRelease_freed _ _ _).mp hmem with hmem | ⟨rfl, hone⟩
    · exact hs it' hmem' j hle hj hmem
    · -- the iterator that is closed was the only one on its table
      have heq : it'.hti = it.hti := le_antisymm hle (hdrop hone it' hmem')
      have hcount := h.count it.hti
      have hpos : 0 < openOn (s.iters.erase it) it'.hti := openOn_pos hit'
      rw [openOn_erase hit it.hti, if_pos rfl, hone] at hcount
      rw [heq] at hpos
      split at hcount <;> push_cast at hcount <;> omega

/-! ### Iterators come and move -/

/-- An iterator is opened on table `i`. -/
def St.opened (s : St) (i : ℕ) : St :=
  { s with
    refCount := Function.update s.refCount i (s.refCount i + 1)
    iters := ⟨s.nextId, i, 0⟩ :: s.iters
    nextId := s.nextId + 1 }

/-- An iterator is opened. -/
theorem Inv.opened (h : Inv s) (hi : s.ht.hti ≤ i) (hlt : i < s.ht.len) : Inv (s.opened i) where
  hti_lt := h.hti_lt
  count := fun j => by
    have hcount := h.count j
    show Function.update s.refCount i (s.refCount i + 1) j
      = (if s.ht.hti ≤ j then 1 else 0) + (openOn (⟨s.nextId, i, 0⟩ :: s.iters) j : ℤ)
    have hcons : openOn (⟨s.nextId, i, 0⟩ :: s.iters) j
        = openOn s.iters j + if i = j then 1 else 0 := by
      rw [openOn, List.countP_cons]
      simp only [decide_eq_true_eq]
      rfl
    rw [hcons]
    by_cases hij : j = i
    · subst hij
      rw [Function.update_self, if_pos (rfl : j = j), hcount]
      push_cast
      ring
    · rw [Function.update_of_ne hij, if_neg (Ne.symm hij), hcount, add_zero]
  iters_lt := fun it hit => by
    rcases List.mem_cons.mp hit with rfl | hit
    · exact hlt
    · exact h.iters_lt it hit
  freed_iff := fun j => by
    show j ∈ s.freed ↔ Function.update s.refCount i (s.refCount i + 1) j = 0
    rw [h.freed_iff]
    by_cases hij : j = i
    · subst hij
      have hcount := h.count j
      rw [if_pos hi] at hcount
      rw [Function.update_self]
      constructor <;> intro hzero <;> omega
    · rw [Function.update_of_ne hij]

/-- A new iterator stands behind everything that was freed. -/
theorem Inv.safe_opened (h : Inv s) (hs : s.Safe) (hi : s.ht.hti ≤ i) : (s.opened i).Safe := by
  intro it hit j hle hlt hmem
  rcases List.mem_cons.mp hit with rfl | hit
  · have hbefore := h.freed_lt hmem
    have hij : i ≤ j := hle
    omega
  · exact hs it hit j hle hlt hmem

/-- An iterator has gone on, on its table. -/
def St.moved (s : St) (it it' : Iter) : St := { s with iters := it' :: s.iters.erase it }

/-- An iterator moves on in its table. -/
theorem Inv.moved (h : Inv s) (hit : it ∈ s.iters) (heq : it'.hti = it.hti) :
    Inv (s.moved it it') where
  hti_lt := h.hti_lt
  count := fun j => by
    have hcons : openOn (it' :: s.iters.erase it) j = openOn s.iters j := by
      rw [openOn_erase hit j, openOn, List.countP_cons]
      simp only [decide_eq_true_eq, heq]
      rfl
    show s.refCount j = _ + (openOn (it' :: s.iters.erase it) j : ℤ)
    rw [hcons]
    exact h.count j
  iters_lt := fun x hx => by
    rcases List.mem_cons.mp hx with rfl | hx
    · rw [heq]
      exact h.iters_lt it hit
    · exact h.iters_lt x (List.mem_of_mem_erase hx)
  freed_iff := h.freed_iff

/-- That frees nothing. -/
theorem safe_moved (hs : s.Safe) (hit : it ∈ s.iters) (heq : it'.hti = it.hti) :
    (s.moved it it').Safe := by
  intro x hx j hle hlt
  rcases List.mem_cons.mp hx with rfl | hx
  · exact hs it hit j (heq ▸ hle) hlt
  · exact hs x (List.mem_of_mem_erase hx) j hle hlt

/-- The iterator of a handle is an open one. -/
theorem iter_mem {id : ℕ} (h : s.iter id = some it) : it ∈ s.iters := List.mem_of_find?_eq_some h

end Counts

/-! ## The calls -/

section Calls

variable {kt : KeyType} {fuel key expected new id : ℕ} {s s' : St}

/-- The loop of `ht_cas` and `ht_remove` changes nothing but the chain. -/
theorem casLoop_step {i r : ℕ} (h : Inv s)
    (hcall : (casLoop kt fuel s.ht i key expected new).map
      (fun (r, ht) => (r, { s with ht := ht })) = some (r, s')) :
    Inv s' ∧ (s'.Safe ↔ s.Safe) := by
  obtain ⟨⟨r', ht⟩, hloop, heq⟩ := Option.map_eq_some_iff.mp hcall
  cases heq
  have hlong := casLoop_longer hloop
  exact ⟨h.setHt hlong, h.safe_setHt hlong⟩

/-- **`ht_cas`**: it frees a table only when it unlinks it with its last reference. -/
theorem htCas_step {r : ℕ} (h : Inv s)
    (hcall : htCas kt fuel s key expected new = some (r, s')) :
    Inv s' ∧ (s.Safe → (s'.Safe ↔ (Unlinks kt fuel s → s.Droppable s.ht.hti))) := by
  simp only [htCas] at hcall
  split at hcall
  · rename_i hnext
    split at hcall
    · cases hcall
    · rename_i finished ht hhelp
      have hlong := htiHelpCopy_longer hhelp
      have hinv := h.setHt hlong
      cases finished with
      | true =>
        have hunlinks : Unlinks kt fuel s := ⟨hnext, by rw [hhelp]; rfl⟩
        have hstart : { s with ht := { ht with hti := s.ht.hti + 1 } }.htiRelease s.ht.hti
            = St.unlink { s with ht := ht } := by
          rw [St.unlink, ← hlong.1]
        simp only [if_true, hstart] at hcall
        have hnext' : ht.hti + 1 < ht.len := by
          rw [hlong.1]
          exact hnext.trans_le hlong.2
        obtain ⟨hinv', hiff⟩ := casLoop_step (hinv.unlink hnext') hcall
        refine ⟨hinv', fun hs => hiff.trans
          ((hinv.safe_unlink ((h.safe_setHt hlong).mpr hs)).trans ?_)⟩
        show (s.refCount ht.hti = 1 → _) ↔ _
        rw [hlong.1]
        exact ⟨fun hdrop _ => hdrop, fun hdrop => hdrop hunlinks⟩
      | false =>
        have hnot : ¬ Unlinks kt fuel s := by
          rintro ⟨-, htrue⟩
          rw [hhelp] at htrue
          cases htrue
        simp only [Bool.false_eq_true, if_false] at hcall
        obtain ⟨hinv', hiff⟩ := casLoop_step hinv hcall
        exact ⟨hinv', fun hs => ⟨fun _ hun => absurd hun hnot,
          fun _ => hiff.mpr ((h.safe_setHt hlong).mpr hs)⟩⟩
  · rename_i hlast
    obtain ⟨hinv', hiff⟩ := casLoop_step h hcall
    exact ⟨hinv', fun hs => ⟨fun _ hun => absurd hun.1 hlast, fun _ => hiff.mpr hs⟩⟩

/-- **`ht_iter_begin`** frees nothing. -/
theorem htIterBegin_step {r : ℕ} (h : Inv s)
    (hcall : htIterBegin kt fuel s = some (r, s')) : Inv s' ∧ (s.Safe → s'.Safe) := by
  simp only [htIterBegin] at hcall
  split at hcall
  · cases hcall
  · rename_i i ht hlast
    obtain ⟨hlong, hle, hlen⟩ := lastTable_spec hlast h.hti_lt
    have hinv := h.setHt hlong
    split at hcall
    · cases hcall
    · cases hcall
      have hge : ht.hti ≤ i := by
        rw [hlong.1]
        exact hle
      have hlt : i < ht.len := by omega
      exact ⟨hinv.opened hge hlt, fun hs => hinv.safe_opened ((h.safe_setHt hlong).mpr hs) hge⟩

/-- **`ht_iter_next`** frees nothing. -/
theorem htIterNext_step {r : ℕ} (h : Inv s)
    (hcall : htIterNext kt fuel s id = some (r, s')) : Inv s' ∧ (s.Safe → s'.Safe) := by
  simp only [htIterNext] at hcall
  split at hcall
  · cases hcall
  · rename_i it hfind
    obtain ⟨⟨⟨key, val⟩, pos, ht⟩, hnext, heq⟩ := Option.map_eq_some_iff.mp hcall
    cases heq
    have hlong := iterNext_longer hnext
    have hit : it ∈ ({ s with ht := ht } : St).iters := iter_mem hfind
    exact ⟨(h.setHt hlong).moved hit rfl,
      fun hs => safe_moved ((h.safe_setHt hlong).mpr hs) hit rfl⟩

/-- The reference counts do not change what `ht_cas` does to the chain. -/
theorem htCas_chain (kt : KeyType) (fuel : ℕ) (s : St) (key expected new : ℕ) :
    (htCas kt fuel s key expected new).map (fun p => (p.1, p.2.ht))
      = Hashtable.htCas kt fuel s.ht key expected new := by
  have hmap : ∀ (t : St) (o : Option (ℕ × Ht)),
      (o.map fun (p : ℕ × Ht) => (p.1, ({ t with ht := p.2 } : St))).map (fun p => (p.1, p.2.ht))
        = o := by
    intro t o
    cases o <;> rfl
  by_cases hnext : s.ht.hti + 1 < s.ht.len
  · simp only [htCas, Hashtable.htCas, if_pos hnext]
    cases hhelp : htiHelpCopy kt fuel s.ht s.ht.hti with
    | none => rfl
    | some p =>
      obtain ⟨finished, ht⟩ := p
      cases finished
      · exact hmap { s with ht := ht } _
      · exact hmap ({ s with ht := { ht with hti := s.ht.hti + 1 } }.htiRelease s.ht.hti) _
  · simp only [htCas, Hashtable.htCas, if_neg hnext]
    exact hmap s _

/-- **The step lemma**: the call keeps the counts exact, and what the iterators need exactly
when it meets the condition. -/
theorem sys_step {c : Call} (h : Inv s) (hstep : sys kt fuel s c = some s') :
    Inv s' ∧ (s.Safe → (s'.Safe ↔ Fits kt fuel s c)) := by
  obtain ⟨⟨r, s₁⟩, hcall, rfl⟩ := Option.map_eq_some_iff.mp hstep
  have hsafe : ∀ {t : St}, Inv t ∧ (s.Safe → t.Safe) → Inv t ∧ (s.Safe → (t.Safe ↔ True)) :=
    fun ht => ⟨ht.1, fun hs => iff_true_intro (ht.2 hs)⟩
  cases c with
  | cas key expected new => exact htCas_step h hcall
  | remove key =>
    obtain ⟨hinv, hiff⟩ := casLoop_step h hcall
    exact hsafe ⟨hinv, hiff.mpr⟩
  | iterBegin key => exact hsafe (htIterBegin_step h hcall)
  | iterNext id => exact hsafe (htIterNext_step h hcall)
  | iterFree id =>
    simp only [call, htIterFree] at hcall
    split at hcall
    · cases hcall
    · rename_i it hfind
      cases hcall
      have hit := iter_mem hfind
      refine ⟨h.close hit, fun hs => (h.safe_close hs hit).trans ?_⟩
      show s.Droppable it.hti ↔ ∀ it' ∈ s.iter id, s.Droppable it'.hti
      simp only [hfind, Option.mem_some_iff, forall_eq']
  | rcuUpdate =>
    cases hcall
    exact hsafe ⟨h, id⟩

/-- The counts are exact at the start. -/
theorem init_inv : Inv init where
  hti_lt := by decide
  count := fun j => by
    show (1 : ℤ) = (if 0 ≤ j then 1 else 0) + ((0 : ℕ) : ℤ)
    rw [if_pos (Nat.zero_le j)]
    rfl
  iters_lt := fun it hit => absurd hit List.not_mem_nil
  freed_iff := fun j => by
    constructor
    · intro hj
      exact absurd hj List.not_mem_nil
    · intro hzero
      exact absurd hzero one_ne_zero

/-- **Iterators and tables.**  In a run of calls, no table that an open iterator can read
has been passed to `hti_defer_free`, exactly when no call gives up the last reference to a
table while an iterator is open on one before it. -/
theorem safe_iff_fits (kt : KeyType) (fuel : ℕ) (cs : List Call) (s : St)
    (hrun : run (sys kt fuel) init cs = some s) :
    (∀ pre post s', cs = pre ++ post → run (sys kt fuel) init pre = some s' → s'.Safe)
      ↔ StepsMeet (sys kt fuel) (Fits kt fuel) init cs := by
  have hsafe : init.Safe := fun it hit => absurd hit List.not_mem_nil
  exact always_iff_stepsMeet (fun _ _ _ h hs _ hstep => (sys_step h hstep).imp_right fun hiff => hiff hs)
    init_inv hsafe (fun _ _ => trivial) hrun

end Calls

/-! ### Runs -/

/-- Keys that all start in one of two buckets, so that a table has room for eight. -/
def twoBuckets : KeyType := .integer fun _ => 2 ^ 31

/-- An iterator is opened on the empty table, and nine keys are set. -/
def iterated : List Call :=
  .iterBegin 0 :: (List.range 9).map fun n => .cas (n + 1) expectWhatever (n + 100)

/-- Key 1 is set `n` times. -/
def again (n : ℕ) : List Call := List.replicate n (.cas 1 expectWhatever 7)

/-- The iterator is closed before the second table is unlinked. -/
theorem safe_iff_fits_closed :
    ∃ s, run (sys twoBuckets 9) init (iterated ++ again 5 ++ .iterFree 0 :: again 1) = some s
      ∧ s.Safe := by
  have hsome : (run (sys twoBuckets 9) init
      (iterated ++ again 5 ++ .iterFree 0 :: again 1)).isSome = true := by
    decide +kernel
  obtain ⟨s, hrun⟩ := Option.isSome_iff_exists.mp hsome
  have hsafe := (safe_iff_fits twoBuckets 9 _ s hrun).mpr (by decide +kernel)
  exact ⟨s, hrun, hsafe _ [] s (List.append_nil _).symm hrun⟩

/-- While the iterator is open on table 0, `ht_cas` passes table 1 to `hti_defer_free`. -/
theorem table_freed_under_iterator :
    ∃ s, run (sys twoBuckets 9) init (iterated ++ again 6) = some s ∧ s.iters = [⟨0, 0, 0⟩]
      ∧ s.freed = [1] ∧ ¬ s.Safe := by
  have hmap : ((run (sys twoBuckets 9) init (iterated ++ again 6)).map fun s =>
      (s.iters, s.freed, s.ht.len)) = some ([⟨0, 0, 0⟩], [1], 4) := by
    decide +kernel
  obtain ⟨s, hrun, heq⟩ := Option.map_eq_some_iff.mp hmap
  obtain ⟨hiters, hrest⟩ := Prod.mk.inj heq
  obtain ⟨hfreed, hlen⟩ := Prod.mk.inj hrest
  refine ⟨s, hrun, hiters, hfreed, fun hsafe => ?_⟩
  have hmem : (⟨0, 0, 0⟩ : Iter) ∈ s.iters := by
    rw [hiters]
    exact List.mem_cons_self
  have hnot := hsafe ⟨0, 0, 0⟩ hmem 1 (by decide) (by rw [hlen]; decide)
  rw [hfreed] at hnot
  exact hnot List.mem_cons_self

end HashtableIter
