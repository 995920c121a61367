/-
# The stores of `hti_copy_entry`

What `hti_copy_entry` does, store by store, while one thread copies table `i`: an entry is
shut, its key is installed in a table behind, its value arrives there, or a new table is
appended.  What is to be shown of `hti_help_copy` is shown for each of these.

* `Move`, `Moves` — one store, and several;
* `copier_moves`, `htiCopyEntry_moves`, `htiCopyEntries_moves` — entries are copied by such
  stores, and are dead afterwards;
* `htiHelpCopy_moves` — so does `hti_help_copy`, and where it does not finish the copy it has
  moved `copy_scan` on.
-/
import Ssr.HashtableMap
import Ssr.HashtablePersists
import Mathlib.Logic.Relation

open Map Migration

namespace Hashtable

/-- Nothing differs that a lookup, a count or the size of a new table depends on. -/
structure Alike (s s' : Ht) : Prop where
  entries : SameEntries s s'
  hti : s'.hti = s.hti
  count : ∀ i, (s'.tables i).count = (s.tables i).count
  keyCount : ∀ i, (s'.tables i).keyCount = (s.tables i).keyCount

/-- One store of `hti_copy_entry` for table `i`, in a table that stands for `m`: only keys that
have a value are installed. -/
inductive Move (kt : KeyType) (m : List (ℕ × ℕ)) (i : ℕ) : Ht → Ht → Prop
  | shut {s : Ht} {e v : ℕ} : i + 1 < s.len → ¬ Dead (s.val i e) → IsTagged v →
      Move kt m i s (s.setVal i e v)
  | install {s : Ht} {e j f w : ℕ} : i < j → j < s.len → s.key i e = w → w ≠ doesNotExist →
      mapGet kt m (kt.keyOf w) ≠ none → s.find kt (kt.keyOf w) j = some f →
      s.key j f = doesNotExist → Move kt m i s ((s.setKey j f w).addKeyCount j)
  | arrive {s : Ht} {j f v : ℕ} : i < j → s.val j f = doesNotExist → ¬ IsTagged v →
      Move kt m i s (s.setVal j f v)
  | grow {s : Ht} {j w : ℕ} : i < j → s.len = j + 1 → mapGet kt m (kt.keyOf w) ≠ none →
      s.find kt (kt.keyOf w) j = none → Move kt m i s (htiStartCopy s j)
  | transfer {s : Ht} {j : ℕ} : i < j → j < s.len →
      Move kt m i s ((s.addCount i (2 ^ 64 - 1)).addCount j 1)
  | counters {s s' : Ht} : Alike s s' → Move kt m i s s'

/-- Any number of stores. -/
def Moves (kt : KeyType) (m : List (ℕ × ℕ)) (i : ℕ) : Ht → Ht → Prop :=
  Relation.ReflTransGen (Move kt m i)

section Moves

variable {kt : KeyType} {m : List (ℕ × ℕ)} {s s' s'' : Ht} {b i j e f n u fuel keyHash : ℕ}
  {pend : ℕ → ℕ} {did : Bool}

/-- No store. -/
theorem Moves.refl (s : Ht) : Moves kt m i s s := Relation.ReflTransGen.refl

/-- Some stores after the others. -/
theorem Moves.trans (h : Moves kt m i s s') (h' : Moves kt m i s' s'') : Moves kt m i s s'' :=
  Relation.ReflTransGen.trans h h'

/-- One store. -/
theorem Move.moves (h : Move kt m i s s') : Moves kt m i s s' := Relation.ReflTransGen.single h

/-- What every store keeps, a sequence of stores keeps. -/
theorem Moves.keep {P : Ht → Prop} (hstep : ∀ s s', Move kt m i s s' → P s → P s')
    (h : Moves kt m i s s') (hs : P s) : P s' := by
  induction h with
  | refl => exact hs
  | tail _ hmove ih => exact hstep _ _ hmove ih

/-- `hti_start_copy` appends only. -/
theorem htiStartCopy_persists (s : Ht) (j : ℕ) : Persists s (htiStartCopy s j) := by
  unfold htiStartCopy
  split_ifs
  · exact Persists.refl s
  · exact Persists.append s _

/-- **A store** persists. -/
theorem Move.persists (h : Move kt m i s s') : Persists s s' := by
  cases h with
  | shut _ hd _ => exact Persists.setVal hd _
  | @install _ j _ w _ _ _ _ _ _ hkey =>
    exact (Persists.setKey hkey w).trans (Persists.sameEntries (addKeyCount_entries _ j))
  | @arrive j f v _ hv _ =>
    refine Persists.setVal (fun hd => ?_) _
    rw [hv] at hd
    exact absurd hd (by decide)
  | @grow j _ _ _ _ _ => exact htiStartCopy_persists s j
  | @transfer j _ _ =>
    exact (Persists.sameEntries (addCount_entries s i _)).trans
      (Persists.sameEntries (addCount_entries _ j 1))
  | counters h => exact Persists.sameEntries h.entries

/-- So do any number of them. -/
theorem Moves.persists (h : Moves kt m i s s') : Persists s s' :=
  Moves.keep (P := Persists s) (fun _ _ hmove hp => hp.trans hmove.persists) h (Persists.refl s)

/-- No entry that has a key has a null pointer in it. -/
def NonNull (kt : KeyType) (s : Ht) : Prop :=
  ∀ i e, i < s.len → s.key i e ≠ doesNotExist → kt.keyOf (s.key i e) ≠ doesNotExist

/-- Keys that are the same. -/
theorem NonNull.congr (h : NonNull kt s) (hlen : s'.len = s.len)
    (hkey : ∀ i e, s'.key i e = s.key i e) : NonNull kt s' := by
  intro x f hx
  rw [hkey]
  exact h x f (hlen ▸ hx)

/-- A key that is not null is stored. -/
theorem NonNull.setKey {w : ℕ} (h : NonNull kt s) (hw : kt.keyOf w ≠ doesNotExist) :
    NonNull kt (s.setKey i e w) := by
  intro x f hx hne
  by_cases hxf : x = i ∧ f = e
  · obtain ⟨rfl, rfl⟩ := hxf
    rwa [Ht.setKey_key_self]
  · rw [Ht.setKey_key_of_ne w hxf] at hne ⊢
    exact h x f hx hne

/-- A new table has no keys. -/
theorem NonNull.startCopy (h : NonNull kt s) (j : ℕ) : NonNull kt (htiStartCopy s j) := by
  by_cases hj : j + 1 < s.len
  · rwa [htiStartCopy, if_pos hj]
  · obtain ⟨scale, -, heq⟩ := htiStartCopy_eq hj
    rw [heq]
    intro x f hx hne
    rcases Nat.lt_succ_iff_lt_or_eq.mp hx with hlt | rfl
    · rw [Ht.append_key _ hlt.ne] at hne ⊢
      exact h x f hlt hne
    · rw [Ht.append_alloc_key] at hne
      exact absurd rfl hne

/-- **A store** brings no null pointer. -/
theorem Move.nonNull (hmove : Move kt m i s s') (h : NonNull kt s) : NonNull kt s' := by
  cases hmove with
  | shut | arrive => exact h.congr rfl fun _ _ => Ht.setVal_key _
  | @install e j f w hij hj hw hne _ _ _ =>
    have hkeyOf : kt.keyOf w ≠ doesNotExist := by
      rw [← hw] at hne ⊢
      exact h i e (hij.trans hj) hne
    exact (h.setKey hkeyOf).congr (addKeyCount_entries _ j).len
      fun _ _ => (addKeyCount_entries _ j).key_eq
  | grow => exact h.startCopy _
  | @transfer j _ _ =>
    refine h.congr rfl fun x f => ?_
    rw [(addCount_entries _ j 1).key_eq, (addCount_entries s i _).key_eq]
  | counters halike => exact h.congr halike.entries.len fun _ _ => halike.entries.key_eq

/-- Nor do any number of them. -/
theorem Moves.nonNull (hmoves : Moves kt m i s s') (h : NonNull kt s) : NonNull kt s' :=
  Moves.keep (fun _ _ hmove => hmove.nonNull) hmoves h

/-- `hti_start_copy` releases nothing. -/
theorem htiStartCopy_hti (s : Ht) (j : ℕ) : (htiStartCopy s j).hti = s.hti := by
  unfold htiStartCopy
  split_ifs <;> rfl

/-- Nor do the stores of a copy. -/
theorem Moves.hti (h : Moves kt m i s s') : s'.hti = s.hti := by
  refine Moves.keep (P := fun t => t.hti = s.hti) (fun t t' hmove ht => ?_) h rfl
  cases hmove with
  | shut | install | arrive | transfer => exact ht
  | grow => exact (htiStartCopy_hti _ _).trans ht
  | counters halike => exact halike.hti.trans ht

/-! ## One entry -/

/-- What `hti_copy_entry` has done for the entries `e`, …, `e + n - 1`. -/
structure Emptied (kt : KeyType) (m : List (ℕ × ℕ)) (i e n : ℕ) (s s' : Ht) : Prop where
  moves : Moves kt m i s s'
  dead : ∀ x, e ≤ x → x < e + n → Dead (s'.val i x)
  scan : ∀ x, x < s.len → (s'.tables x).copyScan = (s.tables x).copyScan

/-- The state before that may have been another. -/
theorem Emptied.of_moves (hs : Moves kt m i s s')
    (hscan : ∀ x, x < s.len → (s'.tables x).copyScan = (s.tables x).copyScan)
    (h : Emptied kt m i e n s' s'') : Emptied kt m i e n s s'' where
  moves := hs.trans h.moves
  dead := h.dead
  scan x hx := (h.scan x (hx.trans_le hs.persists.len)).trans (hscan x hx)

/-- One entry was copied. -/
theorem Emptied.one (hs : Moves kt m i s s') (hd : Dead (s'.val i e))
    (hscan : ∀ x, x < s.len → (s'.tables x).copyScan = (s.tables x).copyScan) :
    Emptied kt m i e 1 s s' where
  moves := hs
  dead x hx hlt := by
    obtain rfl : x = e := by omega
    exact hd
  scan := hscan

/-- A store of a value leaves `copy_scan`. -/
theorem setVal_scan (s : Ht) (i e v x : ℕ) :
    ((s.setVal i e v).tables x).copyScan = (s.tables x).copyScan :=
  (setVal_counters s i e v x).2.2

/-- A copy that was begun: the value is tagged, the key has a value. -/
theorem copier_moves (hkt : kt.Lawful) : ∀ {fuel : ℕ} {s : Ht} {j keyHash : ℕ},
    Copier kt s b i e u j → mapGet kt m (kt.keyOf (s.key i e)) ≠ none →
    (keyHash = 0 ∨ keyHash = kt.hash (kt.keyOf (s.key i e))) →
    htiCopyEntry kt fuel s i e keyHash j = some (did, s') → Emptied kt m i e 1 s s' := by
  intro fuel
  induction fuel with
  | zero =>
    intro s j keyHash _ _ _ hrun
    cases hrun
  | succ fuel ih =>
    intro s j keyHash hc hlive hh hrun
    have hij := hc.lt
    have hjlt := hc.lt_len
    rw [htiCopyEntry_moving hc.legal hc.src hh] at hrun
    rcases hf : s.find kt (kt.keyOf (s.key i e)) j with _ | f
    · -- no room in table `j`
      rw [hf] at hrun
      simp only at hrun
      by_cases hlt : j + 1 < s.len
      · rw [if_pos hlt] at hrun
        have hskip : (s.cell kt (kt.keyOf (s.key i e)) j).Skipped := by
          rw [Ht.cell_of_none hf]
          trivial
        exact ih (hc.next hlt hskip) hlive (Or.inr rfl) hrun
      · rw [if_neg hlt] at hrun
        have hlast : s.len = j + 1 := by omega
        have hgrow : Move kt m i s (htiStartCopy s j) := .grow hij hlast hlive hf
        obtain ⟨scale, hscale, heq⟩ := htiStartCopy_eq hlt
        have hkey : (s.append (htiAlloc scale)).key i e = s.key i e :=
          Ht.append_key _ (hij.trans hjlt).ne
        rw [heq] at hrun hgrow
        refine Emptied.of_moves hgrow.moves (fun x hx => by rw [Ht.append_of_ne _ hx.ne])
          (ih (hc.append hlast hf ((hc.inv.scale j hjlt).trans hscale)) ?_ ?_ hrun)
        · rwa [hkey]
        · rw [hkey]
          exact Or.inr rfl
    · rw [hf] at hrun
      simp only at hrun
      have hw := hc.withKey hkt hf
      obtain ⟨hc₁, hkey₁⟩ := hc.of_withKey hw
      have hwith : Moves kt m i s (s.withKey j f (s.key i e)) := by
        unfold Ht.withKey
        split_ifs with hkey
        · exact (Move.install hij hjlt rfl hc.key_ne hlive hf hkey).moves
        · exact Moves.refl s
      have hnot : ∀ {t : Ht}, t.val i e = tagValue u → ¬ Dead (t.val i e) := fun h => by
        rw [h]
        exact hc.legal.tagValue_not_dead
      have hlen₁ := hw.vals.len
      have hscan₁ := hw.vals.scan
      generalize s.withKey j f (s.key i e) = s₁ at *
      by_cases hcop : s₁.val j f = copiedValue
      · -- the entry is dead: on to the next table
        rw [if_pos hcop] at hrun
        have hskip : (s₁.cell kt (kt.keyOf (s₁.key i e)) j).Skipped := by
          rw [hkey₁, Ht.cell_of_key hw.find hw.key_ne, hcop, cellOf_copied]
          trivial
        have hnext : j + 1 < s₁.len := by
          refine hc₁.inv.next j f hc₁.lt_len ?_
          rw [hcop]
          exact isTagged_tagValue _
        refine Emptied.of_moves hwith (fun x _ => hscan₁ x) (ih (hc₁.next hnext hskip) ?_ ?_ hrun)
        · rwa [hkey₁]
        · rw [hkey₁]
          exact Or.inr rfl
      · rw [if_neg hcop] at hrun
        by_cases hv : s₁.val j f = doesNotExist
        · -- the value arrives
          rw [if_pos hv] at hrun
          obtain ⟨-, rfl⟩ := Prod.mk.inj (Option.some.inj hrun)
          have hne : ¬ (i = j ∧ e = f) := fun h => hij.ne h.1
          have hsrc : (s₁.setVal j f u).val i e = tagValue u := by
            rw [Ht.setVal_val_of_ne u hne]
            exact hc₁.src
          have harrive : Move kt m i s₁ (s₁.setVal j f u) := .arrive hij hv hc.legal.2.1
          have hshut : Move kt m i (s₁.setVal j f u) ((s₁.setVal j f u).setVal i e copiedValue) :=
            .shut (show i + 1 < s₁.len by omega) (hnot hsrc) (isTagged_tagValue _)
          have hcount : Move kt m i ((s₁.setVal j f u).setVal i e copiedValue)
              ((((s₁.setVal j f u).setVal i e copiedValue).addCount i (2 ^ 64 - 1)).addCount j 1) :=
            .transfer hij (show j < s₁.len by omega)
          refine Emptied.one (hwith.trans (harrive.moves.trans (hshut.moves.trans hcount.moves))) ?_
            fun x _ => ?_
          · rw [(addCount_entries _ j 1).val_eq, (addCount_entries _ i _).val_eq,
              Ht.setVal_val_self]
            exact Or.inl rfl
          · rw [addCount_scan, addCount_scan, setVal_scan, setVal_scan, hscan₁]
        · rw [if_neg hv] at hrun
          obtain ⟨-, rfl⟩ := Prod.mk.inj (Option.some.inj hrun)
          have hshut : Move kt m i s₁ (s₁.setVal i e copiedValue) :=
            .shut (by omega) (hnot hc₁.src) (isTagged_tagValue _)
          refine Emptied.one (hwith.trans hshut.moves) ?_ fun x _ => ?_
          · rw [Ht.setVal_val_self]
            exact Or.inl rfl
          · rw [setVal_scan, hscan₁]

/-- At rest a key goes past the tables before one that has it. -/
theorem Inv.passed_behind {k : ℕ} (hi : Inv kt s b) (hb : Books s b n pend none) (hlt : i < s.len)
    (hins : (s.cell kt k i).Installed) : ∀ x, b ≤ x → x < i → (s.cell kt k x).Passed := by
  intro x hbx hx
  rcases (hi.column k).behind x i hbx hx hlt hins with hfull | htag
  · rw [hfull]
    trivial
  · rcases cell_cases kt s k x with ⟨hc, -⟩ | hc | ⟨g, -, -, hc⟩
    · rw [hc]
      trivial
    · rw [hc] at htag
      exact htag.elim
    · rw [hc] at htag ⊢
      have hg : IsTagged (s.val x g) := by
        by_contra hnot
        exact (cellOf_open_iff.mpr hnot).not_full_or_tagged (Or.inr htag)
      exact cellOf_passed_iff.mpr ((hb.quiet x g hbx (hx.trans hlt) hg).resolve_right nofun)

/-- A value at rest is that of its key. -/
theorem live_of_legal (hi : Inv kt s b) (hb : Books s b n pend none)
    (hval : ∀ k, value (s.cell kt k) b s.len = mapGet kt m k) (hbi : b ≤ i) (hlt : i < s.len)
    (hl : Legal (s.val i e)) : mapGet kt m (kt.keyOf (s.key i e)) = some (s.val i e) := by
  have hkey : s.key i e ≠ doesNotExist := hi.val_key i e hlt hl.1 fun h => hl.not_dead (Or.inl h)
  have hcell : s.cell kt (kt.keyOf (s.key i e)) i = .live (s.val i e) := by
    rw [Ht.cell_of_key (hi.found i e hlt hkey) hkey]
    exact cellOf_live hl
  have hins : (s.cell kt (kt.keyOf (s.key i e)) i).Installed := by
    rw [hcell]
    trivial
  have hpass := hi.passed_behind hb hlt hins
  rw [← hval, value_of_passed hbi hlt.le hpass, value_of_read hlt (by rw [hcell]; rfl)]

/-- **Copying an entry**, at rest. -/
theorem htiCopyEntry_moves (hkt : kt.Lawful) (hi : Inv kt s b) (hb : Books s b n pend none)
    (hval : ∀ k, value (s.cell kt k) b s.len = mapGet kt m k) (hbi : b ≤ i) (hlt : i + 1 < s.len)
    (he : e < 2 ^ (s.tables i).scale)
    (hrun : htiCopyEntry kt fuel s i e 0 (i + 1) = some (did, s')) : Emptied kt m i e 1 s s' := by
  obtain ⟨fuel, rfl⟩ : ∃ n, fuel = n + 1 := by
    cases fuel with
    | zero => cases hrun
    | succ n => exact ⟨n, rfl⟩
  have hilt : i < s.len := by omega
  have hdead : Dead (s.val i e) → Emptied kt m i e 1 s s' := by
    intro hd
    simp only [htiCopyEntry, if_pos hd] at hrun
    cases hrun
    exact Emptied.one (Moves.refl s) hd fun _ _ => rfl
  have hshut : ∀ v, ¬ Dead (s.val i e) → Dead v → Emptied kt m i e 1 s (s.setVal i e v) := by
    intro v hnd hd
    refine Emptied.one (Move.shut hlt hnd hd.isTagged).moves ?_ fun x _ => setVal_scan s i e v x
    rw [Ht.setVal_val_self]
    exact hd
  rcases hi.stored i e hilt with hv | hv | hl | hd | ⟨u, hl, hv⟩
  · have hnd : ¬ Dead (s.val i e) := by
      rw [hv]
      decide
    simp only [htiCopyEntry, if_neg hnd, if_pos hv] at hrun
    cases hrun
    exact hshut _ hnd (Or.inl rfl)
  · have hnd : ¬ Dead (s.val i e) := by
      rw [hv]
      decide
    have h0 : s.val i e ≠ doesNotExist := by
      rw [hv]
      decide
    simp only [htiCopyEntry, if_neg hnd, if_neg h0, if_pos hv] at hrun
    cases hrun
    exact hshut _ hnd (Or.inr (by rw [hv]))
  · -- a value is tagged and then moved
    obtain ⟨hi₁, -⟩ := hi.shut he hlt (Or.inr (Or.inr ⟨hl, rfl⟩))
    have hc : Copier kt (s.setVal i e (tagValue (s.val i e))) b i e (s.val i e) (i + 1) :=
      ⟨hi₁, hl, Ht.setVal_val_self _, by rw [Ht.setVal_scale]; exact he, Nat.lt_succ_self i, hlt,
        fun m hm hmj => by omega⟩
    have hlive : mapGet kt m (kt.keyOf (s.key i e)) ≠ none := by
      rw [live_of_legal hi hb hval hbi hilt hl]
      exact Option.some_ne_none _
    have htag : Move kt m i s (s.setVal i e (tagValue (s.val i e))) :=
      .shut hlt hl.not_dead (isTagged_tagValue _)
    rw [htiCopyEntry_legal hl rfl] at hrun
    refine Emptied.of_moves htag.moves (fun x _ => setVal_scan s i e _ x)
      (copier_moves hkt hc ?_ (Or.inl rfl) hrun)
    rwa [Ht.setVal_key]
  · exact hdead hd
  · have ht : IsTagged (s.val i e) := by
      rw [hv]
      exact isTagged_tagValue u
    exact hdead ((hb.quiet i e hbi hilt ht).resolve_right (Option.some_ne_none _).symm)

/-- The loop of `hti_help_copy`. -/
theorem htiCopyEntries_moves (hkt : kt.Lawful) (hn : n < 2 ^ 64) (hbi : b ≤ i) {c num : ℕ} :
    ∀ {s : Ht} {e acc : ℕ}, Inv kt s b → Books s b n (pendAt i acc) none →
      (∀ k, value (s.cell kt k) b s.len = mapGet kt m k) → i + 1 < s.len →
      e + c ≤ 2 ^ (s.tables i).scale →
      htiCopyEntries kt fuel i s e c acc = some (num, s') → Emptied kt m i e c s s' := by
  induction c with
  | zero =>
    intro s e acc _ _ _ _ _ hrun
    cases hrun
    exact ⟨Moves.refl _, fun x hx hlt => by omega, fun _ _ => rfl⟩
  | succ c ih =>
    intro s e acc hi hb hval hlt he hrun
    simp only [htiCopyEntries] at hrun
    rcases hstep : htiCopyEntry kt fuel s i e 0 (i + 1) with _ | ⟨did, s₁⟩
    · rw [hstep] at hrun
      cases hrun
    · rw [hstep] at hrun
      have hone := htiCopyEntry_moves hkt hi hb hval hbi hlt (by omega) hstep
      have hp : ∀ x, s.len ≤ x → pendAt i acc x = 0 := fun x hx =>
        Function.update_of_ne (by omega) _ _
      obtain ⟨fuel', did', s₁', h₁, hc⟩ :=
        htiCopyEntry_spec (e := e) hkt hi hn hb hp hbi hlt (by omega)
      have heq := (htiCopyEntry_mono (le_max_left fuel fuel') hstep).symm.trans
        (htiCopyEntry_mono (le_max_right fuel fuel') h₁)
      simp only [Option.some.injEq, Prod.mk.injEq] at heq
      obtain ⟨rfl, rfl⟩ := heq
      have hb₁ := hc.books
      rw [pendAt_add] at hb₁
      have hlen := hc.len
      have hrest := ih hc.inv hb₁ (fun k => (hc.kept k).trans (hval k)) (by omega)
        (by rw [hc.scale i (by omega)]; omega) hrun
      refine ⟨hone.moves.trans hrest.moves, fun x hx hxlt => ?_, fun x hx => ?_⟩
      · rcases Nat.eq_or_lt_of_le hx with rfl | hx
        · exact hrest.moves.persists.isDead (by omega) (hone.dead _ le_rfl (Nat.lt_succ_self _))
        · exact hrest.dead x hx (by omega)
      · exact (hrest.scan x (by omega)).trans (hone.scan x hx)

/-! ## `hti_help_copy` -/

/-- `copy_scan` is not an entry. -/
theorem setCopyScan_alike (s : Ht) (i x : ℕ) : Alike s (s.setCopyScan i x) := by
  refine ⟨setCopyScan_entries s i x, rfl, fun j => ?_, fun j => ?_⟩ <;>
    by_cases hj : j = i
  · simp [Ht.setCopyScan, hj]
  · simp [Ht.setCopyScan, Ht.setTable_of_ne _ hj]
  · simp [Ht.setCopyScan, hj]
  · simp [Ht.setCopyScan, Ht.setTable_of_ne _ hj]

/-- Nor is the number of entries copied. -/
theorem addCopied_alike (s : Ht) (i x : ℕ) : Alike s (s.addCopied i x) := by
  refine ⟨addCopied_entries s i x, rfl, fun j => ?_, fun j => ?_⟩ <;>
    by_cases hj : j = i
  · simp [Ht.addCopied, hj]
  · simp [Ht.addCopied, Ht.setTable_of_ne _ hj]
  · simp [Ht.addCopied, hj]
  · simp [Ht.addCopied, Ht.setTable_of_ne _ hj]

/-- That leaves `copy_scan`. -/
theorem addCopied_scan (s : Ht) (i x j : ℕ) :
    ((s.addCopied i x).tables j).copyScan = (s.tables j).copyScan := by
  by_cases hj : j = i
  · simp [Ht.addCopied, hj]
  · simp [Ht.addCopied, Ht.setTable_of_ne _ hj]

/-- What `hti_help_copy` leaves. -/
structure HelpedOn (kt : KeyType) (b i : ℕ) (m : List (ℕ × ℕ)) (finished : Bool) (s s' : Ht) :
    Prop where
  refines : Refines kt s' b m
  moves : Moves kt m i s s'
  all : finished = true → (s'.tables i).numEntriesCopied = 2 ^ (s'.tables i).scale
  /-- The copy is not done after a pass over the whole table only. -/
  scan : finished = false → (s.tables i).copyScan < 2 ^ ((s.tables i).scale + 1)
    ∧ (s'.tables i).copyScan = (s.tables i).copyScan + entriesPerCopyChunk

/-- A chunk was copied, and `num_entries_copied` is adjusted. -/
theorem htiHelpCopy_count {num total size : ℕ} {finished : Bool}
    (h : (if num = 0 then (decide (total = size), s)
      else (decide (((s.addCopied i num).tables i).numEntriesCopied = size), s.addCopied i num))
        = (finished, s')) :
    Alike s s' ∧ (s'.tables i).copyScan = (s.tables i).copyScan
      ∧ (total = (s.tables i).numEntriesCopied → (s.tables i).numEntriesCopied + num = size →
        finished = true) := by
  split_ifs at h with hnum <;> obtain ⟨rfl, rfl⟩ := Prod.mk.inj h
  · refine ⟨⟨⟨rfl, fun _ => rfl, fun _ => rfl, fun _ => rfl⟩, rfl, fun _ => rfl, fun _ => rfl⟩, rfl,
      fun htotal hsize => decide_eq_true ?_⟩
    omega
  · refine ⟨addCopied_alike s i num, addCopied_scan s i num i, fun _ hsize => decide_eq_true ?_⟩
    rw [addCopied_self]
    exact hsize

/-- All entries of a table are dead. -/
theorem census_of_dead (h : ∀ e, e < 2 ^ (s.tables i).scale → Dead (s.val i e)) :
    census dead s i = 2 ^ (s.tables i).scale := by
  unfold census
  rw [Finset.sum_congr rfl fun e he => by
    rw [show dead (s.val i e) = true from decide_eq_true (h e (Finset.mem_range.mp he))]]
  simp

/-- **Helping a copy.** -/
theorem htiHelpCopy_moves (hkt : kt.Lawful) (h : Refines kt s b m) (hbi : b ≤ i)
    (hlt : i + 1 < s.len) {finished : Bool}
    (hrun : htiHelpCopy kt fuel s i = some (finished, s')) : HelpedOn kt b i m finished s s' := by
  have hn := h.keyed.length_lt hkt
  have hilt : i < s.len := by omega
  obtain ⟨fuel', finished', s₁, h₁, hi₁, hk₁, hb₁, hhti, hlen, hall⟩ :=
    htiHelpCopy_spec hkt hn hbi h.inv h.books hlt
  have heq := (htiHelpCopy_mono (le_max_left fuel fuel') hrun).symm.trans
    (htiHelpCopy_mono (le_max_right fuel fuel') h₁)
  simp only [Option.some.injEq, Prod.mk.injEq] at heq
  obtain ⟨rfl, rfl⟩ := heq
  have href : Refines kt s' b m := h.of_kept hi₁ hk₁ hb₁
  clear h₁
  by_cases htotal : (s.tables i).numEntriesCopied = 2 ^ (s.tables i).scale
  · simp only [htiHelpCopy, if_pos htotal] at hrun
    cases hrun
    exact ⟨href, Moves.refl _, hall, fun h => by cases h⟩
  · have hpend : Books s b m.length (pendAt i 0) none := by
      rw [pendAt_zero]
      exact h.books
    by_cases hpanic : 2 ^ ((s.tables i).scale + 1) ≤ (s.tables i).copyScan
    · -- the whole table is copied
      simp only [htiHelpCopy, if_neg htotal, if_pos hpanic] at hrun
      obtain ⟨⟨num, s₂⟩, hcop, hend⟩ := Option.map_eq_some_iff.mp hrun
      have hemptied := htiCopyEntries_moves hkt hn hbi h.inv hpend h.value_eq hlt (by omega) hcop
      obtain ⟨fuel', num', s₂', h₂, hhelped⟩ :=
        htiCopyEntries_spec (e := 0) (m := 2 ^ (s.tables i).scale) hkt hn hbi h.inv hpend hlt (by omega)
      have heq := (htiCopyEntries_mono (le_max_left fuel fuel') hcop).symm.trans
        (htiCopyEntries_mono (le_max_right fuel fuel') h₂)
      simp only [Option.some.injEq, Prod.mk.injEq] at heq
      obtain ⟨rfl, rfl⟩ := heq
      obtain ⟨halike, -, hfinished⟩ := htiHelpCopy_count hend
      refine ⟨href, hemptied.moves.trans (Move.counters halike).moves, hall, fun hfalse => ?_⟩
      have hscale := hhelped.scale i hilt
      have hcensus := census_of_dead (s := s₂) (i := i) fun e he =>
        hemptied.dead e (Nat.zero_le e) (by rwa [Nat.zero_add, ← hscale])
      have hbooks := hhelped.books.copied i hbi (hilt.trans_le hhelped.len)
      rw [hcensus, hscale, show pendAt i num i = num from Function.update_self ..] at hbooks
      have htrue := hfinished (hhelped.copied i hilt).symm hbooks.symm
      rw [hfalse] at htrue
      cases htrue
    · have hscan := h.books.scan i hilt
      have hchunk := chunk_le (h.inv.scale i hilt) hscan
      simp only [htiHelpCopy, if_neg htotal, if_neg hpanic] at hrun
      obtain ⟨⟨num, s₂⟩, hcop, hend⟩ := Option.map_eq_some_iff.mp hrun
      have halike₁ := setCopyScan_alike s i ((s.tables i).copyScan + entriesPerCopyChunk)
      obtain ⟨hi₂, hk₂⟩ := h.inv.sameEntries halike₁.entries
      have hemptied := htiCopyEntries_moves hkt hn hbi hi₂
        (hpend.setCopyScan (dvd_add hscan (dvd_refl _)))
        (fun k => (hk₂ k).trans (h.value_eq k)) hlt (by rw [halike₁.entries.scale]; exact hchunk) hcop
      obtain ⟨halike, hscan', -⟩ := htiHelpCopy_count hend
      refine ⟨href, (Move.counters halike₁).moves.trans
        (hemptied.moves.trans (Move.counters halike).moves), hall,
        fun _ => ⟨Nat.lt_of_not_le hpanic, ?_⟩⟩
      rw [hscan', hemptied.scan i hilt]
      simp [Ht.setCopyScan]

end Moves

/-! ## The calls -/

section Calls

variable {kt : KeyType} {m : List (ℕ × ℕ)} {s s' : Ht} {b i r key keyHash expected new fuel : ℕ}

/-- A new key is not null. -/
theorem keyOf_newKey_ne (hkt : kt.Lawful) (n : ℕ) (hk : key ≠ 0) :
    kt.keyOf (kt.newKey n key keyHash) ≠ doesNotExist := by
  cases kt with
  | integer hash => exact hk
  | typed d =>
    have hlt : d.clone n key < 2 ^ 48 := hkt.clone_lt n key
    have hkey : (KeyType.typed d).keyOf ((KeyType.typed d).newKey n key keyHash) = d.clone n key := by
      show (keyHash / 2 ^ 16 * 2 ^ 48 + d.clone n key) % 2 ^ 48 = d.clone n key
      omega
    rw [hkey]
    exact hkt.clone_ne n key

/-- `hti_cas` at rest: no value is being copied. -/
theorem htiCas_persists (hkt : kt.Lawful) (h : Refines kt s b m) (hbi : b ≤ i) (hi : i < s.len)
    (hk : key ≠ 0) (hrun : htiCas kt fuel s i key keyHash expected new = some (r, s')) :
    Persists s s' ∧ (NonNull kt s → NonNull kt s') := by
  rcases htiCas_cases hrun with ⟨-, rfl⟩ | ⟨e, hf, rfl | ⟨s₁, hs₁, hend⟩⟩
  · split_ifs
    · exact ⟨Persists.refl s, id⟩
    · exact ⟨htiStartCopy_persists s i, fun hnn => hnn.startCopy i⟩
  · exact ⟨Persists.refl _, id⟩
  · have hp₁ : Persists s s₁ ∧ (NonNull kt s → NonNull kt s₁) := by
      rw [hs₁]
      split_ifs with hkey
      · have hcloned : SameEntries (s.setKey i e (kt.newKey s.clones key keyHash))
            (s.setKey i e (kt.newKey s.clones key keyHash)).cloned :=
          ⟨rfl, fun _ => rfl, fun _ => rfl, fun _ => rfl⟩
        have hcount := addKeyCount_entries
          (s.setKey i e (kt.newKey s.clones key keyHash)).cloned i
        refine ⟨((Persists.setKey hkey _).trans (Persists.sameEntries hcloned)).trans
          (Persists.sameEntries hcount), fun hnn => ?_⟩
        have hset : NonNull kt (s.setKey i e (kt.newKey s.clones key keyHash)) :=
          hnn.setKey (keyOf_newKey_ne hkt s.clones hk)
        exact hset.congr hcount.len fun _ _ => hcount.key_eq.trans hcloned.key_eq
      · exact ⟨Persists.refl s, id⟩
    have hv₁ : s₁.val i e = s.val i e := by
      rw [hs₁]
      split_ifs
      · exact ((addKeyCount_entries _ i).val_eq).trans (Ht.setKey_val _)
      · rfl
    suffices hs' : Persists s₁ s' ∧ (NonNull kt s₁ → NonNull kt s') from
      ⟨hp₁.1.trans hs'.1, fun hnn => hs'.2 (hp₁.2 hnn)⟩
    rcases hend with ⟨-, -, rfl⟩ | ⟨htag, hnd, -⟩ | ⟨htag, hend⟩
    · exact ⟨Persists.refl _, id⟩
    · rw [hv₁] at htag hnd
      exact absurd ((h.books.quiet i e hbi hi htag).resolve_right nofun) hnd
    · have hnd : ¬ Dead (s₁.val i e) := fun hd => htag hd.isTagged
      have hset : ∀ v, Persists s₁ (s₁.setVal i e v)
          ∧ (NonNull kt s₁ → NonNull kt (s₁.setVal i e v)) := fun v =>
        ⟨Persists.setVal hnd v, fun hnn => hnn.congr rfl fun _ _ => Ht.setVal_key v⟩
      rcases hend with rfl | ⟨v, rfl | ⟨c, rfl⟩⟩
      · exact ⟨Persists.refl _, id⟩
      · exact hset v
      · exact ⟨(hset v).1.trans (Persists.sameEntries (addCount_entries _ i c)), fun hnn =>
          ((hset v).2 hnn).congr rfl fun _ _ => (addCount_entries _ i c).key_eq⟩

/-- The loop of `ht_cas` and `ht_remove`. -/
theorem casLoop_refines (hkt : kt.Lawful) (hk : key ≠ 0 ∧ key < 2 ^ 64)
    (hexp : Expectation expected) (hnew : new = doesNotExist ∨ Legal new) :
    ∀ {fuel : ℕ} {s : Ht} {i : ℕ}, Refines kt s b m → b ≤ i → i < s.len →
      (∀ x, b ≤ x → x < i → (s.cell kt key x).Passed) →
      casLoop kt fuel s i key expected new = some (r, s') →
      Refines kt s' b (mapCas kt m key expected new) ∧ Frame s s' ∧ Persists s s'
        ∧ (NonNull kt s → NonNull kt s') := by
  intro fuel
  induction fuel with
  | zero =>
    intro s i _ _ _ _ hrun
    cases hrun
  | succ fuel ih =>
    intro s i h hbi hi hpass hrun
    obtain ⟨⟨old, s₁⟩, hstep, hans⟩ := htiCas_spec hkt h hbi hi hk hexp hnew hpass
    obtain ⟨hpersists, hnull⟩ := htiCas_persists hkt h hbi hi hk.1 (hstep fuel)
    simp only [casLoop, hstep fuel] at hrun
    rcases hans with ha | hdef
    · rw [if_neg ha.ne_copied] at hrun
      cases hrun
      exact ⟨ha.refines, ha.frame, hpersists, hnull⟩
    · rw [if_pos hdef.copied] at hrun
      obtain ⟨href, hframe, hrest, hnull'⟩ :=
        ih hdef.refines (by omega) hdef.next hdef.passed hrun
      exact ⟨href, hdef.frame.trans hframe, hpersists.trans hrest, fun hnn => hnull' (hnull hnn)⟩

/-- What a call leaves.  A key that had a value goes past the tables that the call has
unlinked. -/
structure Called (kt : KeyType) (m m' : List (ℕ × ℕ)) (s s' : Ht) : Prop where
  refines : Refines kt s' s'.hti m'
  persists : Persists s s'
  nonNull : NonNull kt s → NonNull kt s'
  hti : s.hti ≤ s'.hti
  passed : ∀ k, mapGet kt m k ≠ none → ∀ x, s.hti ≤ x → x < s'.hti → (s'.cell kt k x).Passed

/-- Nothing was unlinked. -/
theorem Called.of_hti {m' : List (ℕ × ℕ)} (href : Refines kt s' s'.hti m') (hp : Persists s s')
    (hnull : NonNull kt s → NonNull kt s') (hhti : s'.hti = s.hti) : Called kt m m' s s' where
  refines := href
  persists := hp
  nonNull := hnull
  hti := hhti.ge
  passed k _ x hx hlt := by omega

/-- In a table that holds nothing any more a key with a value is passed. -/
theorem Refines.passed_of_dead (h : Refines kt s b m) (hlt : b < s.len)
    (hdead : ∀ e, e < 2 ^ (s.tables b).scale → Dead (s.val b e)) {k : ℕ}
    (hk : mapGet kt m k ≠ none) : (s.cell kt k b).Passed := by
  rcases cell_cases kt s k b with ⟨hc, -⟩ | hc | ⟨e, hf, -, hc⟩
  · rw [hc]
    trivial
  · refine absurd ?_ hk
    rw [← h.value_eq k]
    exact value_of_read hlt (by rw [hc]; rfl)
  · rw [hc]
    exact cellOf_passed_iff.mpr (hdead e (h.inv.find_lt hlt hf))

/-- A table that is counted as copied is dead. -/
theorem Refines.dead_of_all (h : Refines kt s b m) (hlt : b < s.len)
    (hall : (s.tables b).numEntriesCopied = 2 ^ (s.tables b).scale) :
    ∀ e, e < 2 ^ (s.tables b).scale → Dead (s.val b e) := by
  have hc := h.books.copied b le_rfl hlt
  rw [hall, Nat.add_zero] at hc
  exact fun e he => of_decide_eq_true (census_eq_size dead hc he)

/-- **`ht_cas`.** -/
theorem htCas_called (hkt : kt.Lawful) (h : Refines kt s s.hti m) (hk : key ≠ 0 ∧ key < 2 ^ 64)
    (hexp : Expectation expected) (hnew : Legal new)
    (hrun : htCas kt fuel s key expected new = some (r, s')) :
    Called kt m (mapCas kt m key expected new) s s' := by
  have hbase := h.inv.base_lt
  unfold htCas at hrun
  by_cases hcopy : s.hti + 1 < s.len
  · simp only [if_pos hcopy] at hrun
    cases hhelp : htiHelpCopy kt fuel s s.hti with
    | none =>
      rw [hhelp] at hrun
      cases hrun
    | some p =>
      obtain ⟨finished, s₁⟩ := p
      rw [hhelp] at hrun
      have hon := htiHelpCopy_moves hkt h le_rfl hcopy hhelp
      have hp₁ := hon.moves.persists
      have hlt₁ : s.hti < s₁.len := hbase.trans_le hp₁.len
      have hhti₁ : s₁.hti = s.hti := hon.moves.hti
      cases finished with
      | false =>
        simp only [Bool.false_eq_true, if_false] at hrun
        obtain ⟨href, hframe, hp, hnull⟩ := casLoop_refines hkt hk hexp (Or.inr hnew) hon.refines
          le_rfl hlt₁ (fun x h1 h2 => by omega) hrun
        have hhti : s'.hti = s.hti := hframe.hti.trans hhti₁
        exact Called.of_hti (by rwa [hhti]) (hp₁.trans hp)
          (fun hnn => hnull (hon.moves.nonNull hnn)) hhti
      | true =>
        simp only [if_true] at hrun
        obtain ⟨href, hframe, hp, hnull⟩ := casLoop_refines hkt hk hexp (Or.inr hnew)
          (hon.refines.setHti (s.hti + 1)) le_rfl hlt₁ (fun x h1 h2 => by omega) hrun
        have hhti : s'.hti = s.hti + 1 := hframe.hti
        have hp' : Persists s₁ s' := (Persists.setHti s₁ _).trans hp
        refine ⟨?_, hp₁.trans hp', fun hnn => hnull (hon.moves.nonNull hnn), by omega,
          fun k hkey x hx hlt => ?_⟩
        · rw [hhti]
          refine href.retire (hcopy.trans_le (hp₁.len.trans hp'.len)) ?_
          have hscale : (s'.tables s.hti).scale = (s₁.tables s.hti).scale := hframe.scale _ hlt₁
          have hcopied : (s'.tables s.hti).numEntriesCopied = (s₁.tables s.hti).numEntriesCopied :=
            hframe.copied _ hlt₁
          rw [hscale, hcopied]
          exact hon.all rfl
        · obtain rfl : x = s.hti := by omega
          exact hp'.passed hlt₁ (hon.refines.passed_of_dead hlt₁
            (hon.refines.dead_of_all hlt₁ (hon.all rfl)) hkey)
  · simp only [if_neg hcopy] at hrun
    obtain ⟨href, hframe, hp, hnull⟩ := casLoop_refines hkt hk hexp (Or.inr hnew) h le_rfl hbase
      (fun x h1 h2 => by omega) hrun
    exact Called.of_hti (by rwa [hframe.hti]) hp hnull hframe.hti

/-- **`ht_remove`.** -/
theorem htRemove_called (hkt : kt.Lawful) (h : Refines kt s s.hti m) (hk : key ≠ 0 ∧ key < 2 ^ 64)
    (hrun : htRemove kt fuel s key = some (r, s')) : Called kt m (mapErase kt m key) s s' := by
  have hexp : Expectation expectWhatever := Or.inr (Or.inr (Or.inl rfl))
  obtain ⟨href, hframe, hp, hnull⟩ := casLoop_refines hkt hk hexp (Or.inl rfl) h le_rfl
    h.inv.base_lt (fun x h1 h2 => by omega) hrun
  exact Called.of_hti (by rwa [hframe.hti]) hp hnull hframe.hti

/-- `hti_get` at rest, from any table on, with any word as the key. -/
theorem htiGet_still (h : Refines kt s b m) : ∀ {fuel i keyHash : ℕ}, i < s.len →
    htiGet kt fuel s i key keyHash = some (r, s') → s' = s := by
  intro fuel
  induction fuel with
  | zero =>
    intro i keyHash _ hrun
    cases hrun
  | succ fuel ih =>
    intro i keyHash hi hrun
    simp only [htiGet] at hrun
    split at hrun
    · by_cases hlast : i + 1 < s.len
      · rw [if_pos hlast] at hrun
        exact ih hlast hrun
      · rw [if_neg hlast] at hrun
        cases hrun
        rfl
    · rename_i e hf
      by_cases hkey : s.key i e = doesNotExist
      · rw [if_pos hkey] at hrun
        cases hrun
        rfl
      · rw [if_neg hkey] at hrun
        by_cases ht : IsTagged (s.val i e)
        · have he : e < 2 ^ (s.tables i).scale :=
            Hti.lookup_lt ((show 2 ≤ minScale by decide).trans (h.inv.scale i hi)) hf
          have hdead : Dead (s.val i e) := h.dead_of_isTagged hi he ht
          rw [if_pos ht, if_pos hdead] at hrun
          exact ih (h.inv.next i e hi ht) hrun
        · rw [if_neg ht] at hrun
          cases hrun
          rfl

/-- The values that are found are legal. -/
theorem Inv.legal_of_value {k v : ℕ} (hi : Inv kt s b) (h : value (s.cell kt k) i s.len = some v) :
    Legal v := by
  obtain ⟨j, -, hj, hread, -⟩ := exists_of_value h
  rcases cell_cases kt s k j with ⟨hc, -⟩ | hc | ⟨e, -, -, hc⟩ <;> rw [hc] at hread
  · cases hread
  · cases hread
  · rcases hi.stored j e hj with h0 | h0 | h0 | h0 | ⟨u, hu, h0⟩
    · rw [h0, cellOf_blank] at hread
      cases hread
    · rw [h0, cellOf_tomb] at hread
      cases hread
    · rw [cellOf_live h0] at hread
      cases hread
      exact h0
    · rw [(cellOf_passed_iff.mpr h0).read_eq] at hread
      cases hread
    · rw [h0, cellOf_moving hu] at hread
      cases hread
      exact hu

/-- What is found from some table on, by a key that the tables before have given away, is what
the map has. -/
theorem Refines.get_of_value {k v : ℕ} (h : Refines kt s b m)
    (hpass : ∀ x, b ≤ x → x < i → (s.cell kt k x).Passed)
    (hv : value (s.cell kt k) i s.len = some v) : mapGet kt m k = some v := by
  obtain ⟨j, hij, hj, hread, hskip⟩ := exists_of_value hv
  have hbj : b ≤ j := by
    by_contra hlt
    rcases cell_cases kt s k j with ⟨hc, -⟩ | hc | ⟨e, hf, -, hc⟩ <;> rw [hc] at hread
    · cases hread
    · cases hread
    · have hdead : Dead (s.val j e) := h.inv.retired j e (not_le.mp hlt) (h.inv.find_lt hj hf)
      rw [(cellOf_passed_iff.mpr hdead).read_eq] at hread
      cases hread
  rw [← h.value_eq k, value_of_passed hbj hj.le fun x hbx hx => ?_, value_of_read hj hread]
  rcases Nat.lt_or_ge x i with hxi | hix
  · exact hpass x hbx hxi
  · exact hskip x hix hx

end Calls

end Hashtable
