/-
# What the stores do to the history of the hash table

One lemma per kind of store: it keeps the invariant of what `hti_copy_entry` has returned
for the entries, and of the counters.

* `History.tables` — a store that shuts no entry, and gives none away;
* `History.kill`, `History.tag` — an entry is shut;
* `History.arrive`, `History.finish`, `History.account` — a value is moved, and the thread that
  moved it says so;
* `Ledger.credit`, `Ledger.settle` — what has been said is owed, and then counted.
-/
import Ssr.HashtableKnows
import Ssr.HashtableCopy

open Interleaving Map Migration Hashtable

namespace HashtableSteps

variable {kt : KeyType} {h h' : Ht} {trues : ℕ → ℕ → ℕ} {won : ℕ → ℕ → Option ℕ}
  {owed : List (ℕ × ℕ)} {s : Shared} {t i j e f u v m : ℕ}

/-! ## Stores that shut no entry -/

/-- The entries with a tag are those that had it. -/
def TagsBack (h h' : Ht) : Prop :=
  ∀ i e, i < h'.len → IsTagged (h'.val i e) → i < h.len ∧ h'.val i e = h.val i e

theorem TagsBack.sameEntries (hs : SameEntries h h') : TagsBack h h' := fun _ _ hi _ =>
  ⟨hs.len ▸ hi, hs.val_eq⟩

theorem TagsBack.setVal (hv : ¬ IsTagged v) : TagsBack h (h.setVal i e v) := by
  intro j f hj ht
  by_cases hjf : j = i ∧ f = e
  · obtain ⟨rfl, rfl⟩ := hjf
    rw [Ht.setVal_val_self] at ht
    exact absurd ht hv
  · exact ⟨hj, Ht.setVal_val_of_ne v hjf⟩

theorem TagsBack.append (scale : ℕ) : TagsBack h (h.append (htiAlloc scale)) := by
  intro j f hj ht
  have hj' : j < h.len + 1 := hj
  by_cases hne : j = h.len
  · subst hne
    rw [Ht.append_alloc_val] at ht
    exact absurd ht (by decide)
  · exact ⟨by omega, Ht.append_val _ hne⟩

theorem History.tables (hh : History kt h trues won) (hi : Hashtable.Inv kt h h.hti)
    (hg : Grows kt h h') (hback : TagsBack h h')
    (hstill : ∀ i e, h.hti ≤ i → Still kt h h' i e) : History kt h' trues won := by
  refine ⟨fun i e ht => ?_, fun i e hw => ?_, fun i e hlt he hd => ?_, fun i e u hlt he hl hv hw => ?_⟩
  · obtain ⟨hlt, he, hone, hd, hw⟩ := hh.credited i e ht
    refine ⟨hlt.trans_le hg.len, ?_, hone, hg.isDead hlt hd, hw⟩
    rw [hg.scale i hlt]
    exact he
  · obtain ⟨hlt, he, hne, htag, hm⟩ := hh.winner i e hw
    refine ⟨hlt.trans_le hg.len, ?_, hg.key_ne hlt hne, hg.isTagged hlt htag, ?_⟩
    · rw [hg.scale i hlt]
      exact he
    · rw [hg.key i e hlt hne]
      exact hg.moved _ _ hm
  · obtain ⟨hlt', hval⟩ := hback i e hlt hd.isTagged
    rw [hval] at hd
    rw [hg.scale i hlt'] at he
    exact hh.settled i e hlt' he hd
  · have htag : IsTagged (h'.val i e) := by
      rw [hv]
      exact isTagged_tagValue u
    obtain ⟨hlt', hval⟩ := hback i e hlt htag
    rw [hg.scale i hlt'] at he
    have hv' : h.val i e = tagValue u := hval.symm.trans hv
    have hne := hl.tagValue_key hi hlt' hv'
    have hbi : h.hti ≤ i := hi.base_le he (by rw [hv']; exact hl.tagValue_not_dead)
    rw [hg.key i e hlt' hne]
    exact fun hm => hh.unmoved i e u hlt' he hl hv' hw (hstill i e hbi u hlt' hl hv' hm)

/-- The counters of the entries that are copied do not change. -/
structure SameCounters (h h' : Ht) : Prop where
  len : h'.len = h.len
  scale : ∀ i, i < h.len → (h'.tables i).scale = (h.tables i).scale
  copied : ∀ i, i < h.len → (h'.tables i).numEntriesCopied = (h.tables i).numEntriesCopied
  scan : ∀ i, i < h.len → (h'.tables i).copyScan = (h.tables i).copyScan

theorem SameCounters.setTable {x : Hti} (hs : x.scale = (h.tables i).scale)
    (hc : x.numEntriesCopied = (h.tables i).numEntriesCopied)
    (hx : x.copyScan = (h.tables i).copyScan) : SameCounters h (h.setTable i x) := by
  refine ⟨rfl, fun j _ => ?_, fun j _ => ?_, fun j _ => ?_⟩
  all_goals
    by_cases hj : j = i
    · subst hj
      rw [Ht.setTable_self]
      assumption
    · rw [Ht.setTable_of_ne _ hj]

theorem Ledger.sameCounters (hl : Ledger h trues owed) (hs : SameCounters h h') :
    Ledger h' trues owed := by
  refine ⟨fun i hi => ?_, fun x hx => ?_, fun i hi => ?_⟩
  · rw [hs.len] at hi
    rw [hs.scale i hi, hs.copied i hi]
    exact hl.counted i hi
  · rw [hs.len]
    exact hl.owing x hx
  · rw [hs.len] at hi
    rw [hs.scan i hi]
    exact hl.scan i hi

/-- A new table: nothing is owed to it, and nothing in it is dead. -/
theorem Ledger.append (hl : Ledger h trues owed) (hh : History kt h trues won) (scale : ℕ) :
    Ledger (h.append (htiAlloc scale)) trues owed := by
  refine ⟨fun i hi => ?_, fun x hx => (hl.owing x hx).trans (Nat.lt_succ_self _), fun i hi => ?_⟩
  · have hi' : i < h.len + 1 := hi
    by_cases hne : i = h.len
    · subst hne
      have hzero : ∀ e, trues h.len e = 0 := fun e => by
        by_contra h0
        exact lt_irrefl _ (hh.credited _ e h0).1
      have howed : owedTo owed h.len = 0 := by
        refine List.countP_eq_zero.mpr fun x hx => ?_
        have := hl.owing x hx
        simp only [decide_eq_true_eq]
        omega
      rw [Finset.sum_eq_zero fun e _ => hzero e, howed, Ht.append_self]
      rfl
    · rw [Ht.append_of_ne _ hne]
      exact hl.counted i (by omega)
  · have hi' : i < h.len + 1 := hi
    by_cases hne : i = h.len
    · subst hne
      rw [Ht.append_self]
      exact dvd_zero _
    · rw [Ht.append_of_ne _ hne]
      exact hl.scan i (by omega)

/-! ## An entry is shut -/

/-- `hti_copy_entry` returns `TRUE` for an entry that it has just shut. -/
theorem History.kill (hh : History kt h trues won) (hg : Grows kt h (h.setVal i e v))
    (hstill : ∀ j f, Still kt h (h.setVal i e v) j f)
    (hlt : i < h.len) (he : e < 2 ^ (h.tables i).scale) (ht : ¬ IsTagged (h.val i e))
    (hd : Dead v) :
    History kt (h.setVal i e v)
      (Function.update trues i (Function.update (trues i) e (trues i e + 1))) won := by
  have hzero : trues i e = 0 := hh.trues_eq_zero fun hdead => ht hdead.isTagged
  have hself : Function.update trues i (Function.update (trues i) e (trues i e + 1)) i e = 1 := by
    rw [Function.update_self, Function.update_self, hzero]
  have hother : ∀ j f, ¬ (j = i ∧ f = e) →
      Function.update trues i (Function.update (trues i) e (trues i e + 1)) j f = trues j f := by
    intro j f hjf
    by_cases hj : j = i
    · subst hj
      rw [Function.update_self, Function.update_of_ne fun hf => hjf ⟨rfl, hf⟩]
    · rw [Function.update_of_ne hj]
  refine ⟨fun j f htr => ?_, fun j f hw => ?_, fun j f hj hf hdead => ?_,
    fun j f u hj hf hl hv hw hm => ?_⟩
  · by_cases hjf : j = i ∧ f = e
    · obtain ⟨rfl, rfl⟩ := hjf
      refine ⟨hlt, ?_, hself, ?_, hh.won_eq_none ht⟩
      · rw [Ht.setVal_scale]
        exact he
      · rw [Ht.setVal_val_self]
        exact hd
    · rw [hother j f hjf] at htr ⊢
      rw [Ht.setVal_scale, Ht.setVal_val_of_ne v hjf]
      exact hh.credited j f htr
  · obtain ⟨hj, hf, hne, htag, hm⟩ := hh.winner j f hw
    rw [Ht.setVal_scale, Ht.setVal_key]
    exact ⟨hj, hf, hne, hg.isTagged hj htag, hg.moved _ _ hm⟩
  · by_cases hjf : j = i ∧ f = e
    · obtain ⟨rfl, rfl⟩ := hjf
      exact Or.inl hself
    · rw [Ht.setVal_scale] at hf
      rw [Ht.setVal_val_of_ne v hjf] at hdead
      rw [hother j f hjf]
      exact hh.settled j f hj hf hdead
  · by_cases hjf : j = i ∧ f = e
    · obtain ⟨rfl, rfl⟩ := hjf
      rw [Ht.setVal_val_self] at hv
      rw [hv] at hd
      exact hl.tagValue_not_dead hd
    · rw [Ht.setVal_scale] at hf
      rw [Ht.setVal_val_of_ne v hjf] at hv
      rw [Ht.setVal_key] at hm
      exact hh.unmoved j f u hj hf hl hv hw (hstill j f u hj hl hv hm)

/-- A value is tagged; it has not moved yet. -/
theorem History.tag (hh : History kt h trues won) (hi : Hashtable.Inv kt h h.hti)
    (hg : Grows kt h (h.setVal i e (tagValue u)))
    (hstill : ∀ j f, Still kt h (h.setVal i e (tagValue u)) j f) (hlt : i < h.len)
    (he : e < 2 ^ (h.tables i).scale) (hl : Legal u) (hv : h.val i e = u) :
    History kt (h.setVal i e (tagValue u)) trues won := by
  have ht : ¬ IsTagged (h.val i e) := hv ▸ hl.2.1
  have hkey : h.key i e ≠ doesNotExist :=
    hi.val_key i e hlt (hv ▸ hl.1) fun hcop => hl.not_dead (Or.inl (hv ▸ hcop))
  have hbi : h.hti ≤ i := hi.base_le he fun hd => ht hd.isTagged
  have hcell : h.cell kt (kt.keyOf (h.key i e)) i = .live u := by
    rw [Ht.cell_of_key (hi.found i e hlt hkey) hkey, hv]
    exact cellOf_live hl
  have hnot : ¬ Moved (h.cell kt (kt.keyOf (h.key i e))) (i + 1) h.len := by
    refine (hi.column _).not_moved hbi ?_
    rw [hcell]
    rintro (h | h)
    · cases h
    · exact h
  refine ⟨fun j f htr => ?_, fun j f hw => ?_, fun j f hj hf hdead => ?_,
    fun j f u' hj hf hl' hv' hw hm => ?_⟩
  · obtain ⟨hj, hf, hone, hd, hw⟩ := hh.credited j f htr
    rw [Ht.setVal_scale]
    exact ⟨hj, hf, hone, hg.isDead hj hd, hw⟩
  · obtain ⟨hj, hf, hne, htag, hm⟩ := hh.winner j f hw
    rw [Ht.setVal_scale, Ht.setVal_key]
    exact ⟨hj, hf, hne, hg.isTagged hj htag, hg.moved _ _ hm⟩
  · by_cases hjf : j = i ∧ f = e
    · obtain ⟨rfl, rfl⟩ := hjf
      rw [Ht.setVal_val_self] at hdead
      exact absurd hdead hl.tagValue_not_dead
    · rw [Ht.setVal_scale] at hf
      rw [Ht.setVal_val_of_ne _ hjf] at hdead
      exact hh.settled j f hj hf hdead
  · rw [Ht.setVal_key] at hm
    by_cases hjf : j = i ∧ f = e
    · obtain ⟨rfl, rfl⟩ := hjf
      refine hnot (Reaches.congr (fun m hm' _ => (Ht.cell_setVal _ fun h => ?_).symm) hm)
      omega
    · rw [Ht.setVal_scale] at hf
      rw [Ht.setVal_val_of_ne _ hjf] at hv'
      exact hh.unmoved j f u' hj hf hl' hv' hw (hstill j f u' hj hl' hv' hm)

/-! ## A value is moved -/

/-- Thread `t` puts the value of entry `e` of table `i` into an entry of table `j`. -/
theorem History.arrive (hh : History kt h trues won) (hi : Hashtable.Inv kt h h.hti)
    (hg : Grows kt h (h.setVal j f u))
    (hstill : ∀ j' f', ¬ (j' = i ∧ f' = e) → Still kt h (h.setVal j f u) j' f')
    (hlt : i < h.len) (he : e < 2 ^ (h.tables i).scale) (hl : Legal u)
    (hsrc : h.val i e = tagValue u) (hij : i < j)
    (hm : Moved ((h.setVal j f u).cell kt (kt.keyOf (h.key i e))) (i + 1) h.len) (t : ℕ) :
    History kt (h.setVal j f u) trues
      (Function.update won i (Function.update (won i) e (some t))) := by
  have hzero : trues i e = 0 := hh.trues_eq_zero (hsrc ▸ hl.tagValue_not_dead)
  have hne : ¬ (i = j ∧ e = f) := fun h => hij.ne h.1
  have hself : Function.update won i (Function.update (won i) e (some t)) i e = some t := by
    rw [Function.update_self, Function.update_self]
  have hother : ∀ j' f', ¬ (j' = i ∧ f' = e) →
      Function.update won i (Function.update (won i) e (some t)) j' f' = won j' f' := by
    intro j' f' hjf
    by_cases hj : j' = i
    · subst hj
      rw [Function.update_self, Function.update_of_ne fun hf => hjf ⟨rfl, hf⟩]
    · rw [Function.update_of_ne hj]
  have hback : TagsBack h (h.setVal j f u) := TagsBack.setVal hl.2.1
  refine ⟨fun j' f' htr => ?_, fun j' f' hw => ?_, fun j' f' hj hf hdead => ?_,
    fun j' f' u' hj hf hl' hv' hw hmv => ?_⟩
  · have hjf : ¬ (j' = i ∧ f' = e) := by
      rintro ⟨rfl, rfl⟩
      exact htr hzero
    obtain ⟨hj, hf, hone, hd, hw⟩ := hh.credited j' f' htr
    rw [Ht.setVal_scale, hother j' f' hjf]
    exact ⟨hj, hf, hone, hg.isDead hj hd, hw⟩
  · rw [Ht.setVal_scale, Ht.setVal_key]
    by_cases hjf : j' = i ∧ f' = e
    · obtain ⟨rfl, rfl⟩ := hjf
      refine ⟨hlt, he, hl.tagValue_key hi hlt hsrc, ?_, hm⟩
      rw [Ht.setVal_val_of_ne u hne, hsrc]
      exact isTagged_tagValue u
    · rw [hother j' f' hjf] at hw
      obtain ⟨hj, hf, hkey, htag, hmv⟩ := hh.winner j' f' hw
      exact ⟨hj, hf, hkey, hg.isTagged hj htag, hg.moved _ _ hmv⟩
  · rw [Ht.setVal_scale] at hf
    obtain ⟨-, hval⟩ := hback j' f' hj hdead.isTagged
    rw [hval] at hdead
    have hjf : ¬ (j' = i ∧ f' = e) := by
      rintro ⟨rfl, rfl⟩
      rw [hsrc] at hdead
      exact hl.tagValue_not_dead hdead
    rw [hother j' f' hjf]
    exact hh.settled j' f' hj hf hdead
  · rw [Ht.setVal_scale] at hf
    have hjf : ¬ (j' = i ∧ f' = e) := by
      rintro ⟨rfl, rfl⟩
      rw [hself] at hw
      cases hw
    have htag : IsTagged ((h.setVal j f u).val j' f') := by
      rw [hv']
      exact isTagged_tagValue u'
    obtain ⟨-, hval⟩ := hback j' f' hj htag
    rw [hval] at hv'
    rw [hother j' f' hjf] at hw
    rw [Ht.setVal_key] at hmv
    exact hh.unmoved j' f' u' hj hf hl' hv' hw (hstill j' f' hjf u' hj hl' hv' hmv)

/-- An entry whose value has moved is given away. -/
theorem History.finish (hh : History kt h trues won) (hg : Grows kt h (h.setVal i e copiedValue))
    (hstill : ∀ j f, Still kt h (h.setVal i e copiedValue) j f) (hl : Legal u)
    (hv : h.val i e = tagValue u)
    (hm : Moved (h.cell kt (kt.keyOf (h.key i e))) (i + 1) h.len) :
    History kt (h.setVal i e copiedValue) trues won := by
  refine ⟨fun j f htr => ?_, fun j f hw => ?_, fun j f hj hf hdead => ?_,
    fun j f u' hj hf hl' hv' hw hmv => ?_⟩
  · obtain ⟨hj, hf, hone, hd, hw⟩ := hh.credited j f htr
    rw [Ht.setVal_scale]
    exact ⟨hj, hf, hone, hg.isDead hj hd, hw⟩
  · obtain ⟨hj, hf, hkey, htag, hmv⟩ := hh.winner j f hw
    rw [Ht.setVal_scale, Ht.setVal_key]
    exact ⟨hj, hf, hkey, hg.isTagged hj htag, hg.moved _ _ hmv⟩
  · rw [Ht.setVal_scale] at hf
    by_cases hjf : j = i ∧ f = e
    · obtain ⟨rfl, rfl⟩ := hjf
      exact Or.inr fun hw => hh.unmoved j f u hj hf hl hv hw hm
    · rw [Ht.setVal_val_of_ne _ hjf] at hdead
      exact hh.settled j f hj hf hdead
  · rw [Ht.setVal_scale] at hf
    rw [Ht.setVal_key] at hmv
    by_cases hjf : j = i ∧ f = e
    · obtain ⟨rfl, rfl⟩ := hjf
      rw [Ht.setVal_val_self] at hv'
      exact hl'.tagValue_not_dead (Or.inl hv'.symm)
    · rw [Ht.setVal_val_of_ne _ hjf] at hv'
      exact hh.unmoved j f u' hj hf hl' hv' hw (hstill j f u' hj hl' hv' hmv)

/-- The thread that has moved the value returns `TRUE`. -/
theorem History.account (hh : History kt h trues won) (hw : won i e ≠ none)
    (hd : Dead (h.val i e)) :
    History kt h (Function.update trues i (Function.update (trues i) e (trues i e + 1)))
      (Function.update won i (Function.update (won i) e none)) := by
  have hzero : trues i e = 0 := by
    by_contra h0
    exact hw (hh.credited i e h0).2.2.2.2
  obtain ⟨hlt, he, -⟩ := hh.winner i e hw
  have hself : Function.update trues i (Function.update (trues i) e (trues i e + 1)) i e = 1 := by
    rw [Function.update_self, Function.update_self, hzero]
  have hself' : Function.update won i (Function.update (won i) e none) i e = none := by
    rw [Function.update_self, Function.update_self]
  have hother : ∀ j f, ¬ (j = i ∧ f = e) →
      Function.update trues i (Function.update (trues i) e (trues i e + 1)) j f = trues j f
      ∧ Function.update won i (Function.update (won i) e none) j f = won j f := by
    intro j f hjf
    by_cases hj : j = i
    · subst hj
      rw [Function.update_self, Function.update_of_ne fun hf => hjf ⟨rfl, hf⟩,
        Function.update_self, Function.update_of_ne fun hf => hjf ⟨rfl, hf⟩]
      exact ⟨rfl, rfl⟩
    · rw [Function.update_of_ne hj, Function.update_of_ne hj]
      exact ⟨rfl, rfl⟩
  refine ⟨fun j f htr => ?_, fun j f hwon => ?_, fun j f hj hf hdead => ?_,
    fun j f u hj hf hl hv hwon => ?_⟩
  · by_cases hjf : j = i ∧ f = e
    · obtain ⟨rfl, rfl⟩ := hjf
      exact ⟨hlt, he, hself, hd, hself'⟩
    · rw [(hother j f hjf).1] at htr ⊢
      rw [(hother j f hjf).2]
      exact hh.credited j f htr
  · have hjf : ¬ (j = i ∧ f = e) := by
      rintro ⟨rfl, rfl⟩
      exact hwon hself'
    rw [(hother j f hjf).2] at hwon
    exact hh.winner j f hwon
  · by_cases hjf : j = i ∧ f = e
    · obtain ⟨rfl, rfl⟩ := hjf
      exact Or.inl hself
    · rw [(hother j f hjf).1, (hother j f hjf).2]
      exact hh.settled j f hj hf hdead
  · have hjf : ¬ (j = i ∧ f = e) := by
      rintro ⟨rfl, rfl⟩
      rw [hv] at hd
      exact hl.tagValue_not_dead hd
    rw [(hother j f hjf).2] at hwon
    exact hh.unmoved j f u hj hf hl hv hwon

/-! ## The ledger -/

/-- A `TRUE` is owed to the table. -/
theorem Ledger.credit (hl : Ledger h trues owed) (hlt : i < h.len)
    (he : e < 2 ^ (h.tables i).scale) (t : ℕ) :
    Ledger h (Function.update trues i (Function.update (trues i) e (trues i e + 1)))
      ((t, i) :: owed) := by
  refine ⟨fun j hj => ?_, fun x hx => ?_, hl.scan⟩
  · have hc := hl.counted j hj
    unfold owedTo at hc ⊢
    by_cases hji : j = i
    · subst hji
      rw [Function.update_self, List.countP_cons_of_pos (by simp)]
      have hsum := sum_change (fun x => trues j x)
        (fun x => Function.update (trues j) e (trues j e + 1) x) (Finset.mem_range.mpr he)
        fun x hx => Function.update_of_ne hx _ _
      simp only [Function.update_self] at hsum
      omega
    · rw [Function.update_of_ne hji, List.countP_cons_of_neg (by simpa using Ne.symm hji)]
      exact hc
  · rcases List.mem_cons.mp hx with rfl | hx
    · exact hlt
    · exact hl.owing x hx

/-- What a thread owes to a table, and the rest. -/
theorem owedTo_filter (owed : List (ℕ × ℕ)) (t i j : ℕ) :
    owedTo (owed.filter (· ≠ (t, i))) j + (if j = i then owed.count (t, i) else 0)
      = owedTo owed j := by
  unfold owedTo
  induction owed with
  | nil => simp
  | cons x owed ih =>
    by_cases hx : x = (t, i)
    · subst hx
      rw [List.filter_cons_of_neg (by simp), List.count_cons_self]
      by_cases hj : j = i
      · subst hj
        rw [if_pos rfl] at ih ⊢
        rw [List.countP_cons_of_pos (by simp)]
        omega
      · rw [if_neg hj] at ih ⊢
        rw [List.countP_cons_of_neg (by simpa using Ne.symm hj)]
        exact ih
    · rw [List.filter_cons_of_pos (by simpa using hx), List.count_cons_of_ne (by simpa using hx)]
      by_cases hj : x.2 = j
      · rw [List.countP_cons_of_pos (by simpa using hj), List.countP_cons_of_pos (by simpa using hj)]
        omega
      · rw [List.countP_cons_of_neg (by simpa using hj), List.countP_cons_of_neg (by simpa using hj)]
        exact ih

/-- What is owed to the table is added to its counter. -/
theorem Ledger.settle (hl : Ledger h trues owed) (hm : owed.count (t, i) = m) :
    Ledger (h.addCopied i m) trues (owed.filter (· ≠ (t, i))) := by
  have hent := addCopied_entries h i m
  refine ⟨fun j hj => ?_, fun x hx => hl.owing x (List.mem_of_mem_filter hx), fun j hj => ?_⟩
  · have hc := hl.counted j hj
    have ho := owedTo_filter owed t i j
    rw [hent.scale]
    by_cases hji : j = i
    · subst hji
      rw [if_pos rfl, hm] at ho
      rw [addCopied_self]
      omega
    · rw [if_neg hji] at ho
      unfold Ht.addCopied
      rw [Ht.setTable_of_ne _ hji]
      omega
  · have hscan := hl.scan j hj
    unfold Ht.addCopied
    by_cases hji : j = i
    · subst hji
      rw [Ht.setTable_self]
      exact hscan
    · rw [Ht.setTable_of_ne _ hji]
      exact hscan

end HashtableSteps
