/-
# The reference counts of the active versions

Where every `sl_cas` call on `active_` finds the count it expects, or the one it is
about to store (`Fits`), the counts are right:

* a `txn_begin` whose read version is no longer `version_` is doomed to its undo
  loop, whose first call stores the count 0.  It stays so, and no transaction can
  get past it;
* as long as nobody is doomed, `active_` counts exactly the transactions that have
  raised the count of their read version and not lowered it yet;
* a transaction that is about to remove the entry of its read version is the only
  one left at it, since whoever could still join is doomed.
-/
import Ssr.Active
import Mathlib.Data.Set.Card

open Interleaving Map

namespace Active

/-! ## The sorted list -/

section Entries

variable {key v : ℕ} {l : List (ℕ × ℕ)}

/-- The keys behind are near too. -/
theorem Near.tail {e : ℕ × ℕ} (h : Near key (e :: l)) : Near key l :=
  fun e' he' => h e' (List.mem_cons_of_mem e he')

/-- Between near keys the 32-bit difference is exact. -/
theorem Near.keyDiff {e : ℕ × ℕ} (h : Near key l) (he : e ∈ l) : keyDiff e.1 key = (e.1 : ℤ) - key :=
  keyDiff_of_near (h e he).1 (h e he).2

/-- Storing the value that is there changes nothing. -/
theorem slPut_of_slFind (h : slFind key l = some v) : slPut key v l = l := by
  induction l with
  | nil => cases h
  | cons e l ih =>
    obtain ⟨k, w⟩ := e
    simp only [slFind] at h
    simp only [slPut]
    split_ifs at h ⊢ with h₁ h₂
    · rw [ih h]
    · cases h
      rfl

/-- What was stored is found, however far apart the keys are. -/
theorem slFind_slPut_self (key v : ℕ) (l : List (ℕ × ℕ)) : slFind key (slPut key v l) = some v := by
  induction l with
  | nil => simp [slPut, slFind]
  | cons e l ih =>
    obtain ⟨k, w⟩ := e
    simp only [slPut]
    split_ifs with h₁ h₂
    · simp only [slFind, if_pos h₁]
      exact ih
    · simp [slFind, h₂]
    · simp [slFind]

/-- What `sl_lookup` finds is there. -/
theorem mem_of_slFind (hn : Near key l) (h : slFind key l = some v) : (key, v) ∈ l := by
  induction l with
  | nil => cases h
  | cons e l ih =>
    obtain ⟨k, w⟩ := e
    have hd := hn.keyDiff List.mem_cons_self
    simp only [slFind] at h
    split_ifs at h with h₁ h₂
    · exact List.mem_cons_of_mem _ (ih hn.tail h)
    · cases h
      have : k = key := by
        rw [hd] at h₂
        simp only at h₂
        omega
      rw [this]
      exact List.mem_cons_self

/-- What is there `sl_lookup` finds. -/
theorem slFind_of_mem (hn : Near key l) (hs : l.Pairwise fun a b => a.1 < b.1)
    (h : (key, v) ∈ l) : slFind key l = some v := by
  induction l with
  | nil => cases h
  | cons e l ih =>
    obtain ⟨k, w⟩ := e
    obtain ⟨hlt, hs⟩ := List.pairwise_cons.mp hs
    have hd := hn.keyDiff List.mem_cons_self
    simp only at hd
    simp only [slFind]
    rcases List.mem_cons.mp h with heq | hmem
    · cases heq
      simp
    · have hk : k < key := hlt _ hmem
      rw [if_pos (by omega)]
      exact ih hn.tail hs hmem

/-- Storing keeps the other entries. -/
theorem mem_slPut_iff (hn : Near key l) (hs : l.Pairwise fun a b => a.1 < b.1) {k w : ℕ} :
    (k, w) ∈ slPut key v l ↔ (k = key ∧ w = v) ∨ (k ≠ key ∧ (k, w) ∈ l) := by
  induction l with
  | nil => simp [slPut]
  | cons e l ih =>
    obtain ⟨k₀, w₀⟩ := e
    obtain ⟨hlt, hs⟩ := List.pairwise_cons.mp hs
    have hd := hn.keyDiff List.mem_cons_self
    simp only at hd hlt
    simp only [slPut]
    rw [hd]
    split_ifs with h₁ h₂
    · have hk : k₀ ≠ key := by omega
      rw [List.mem_cons, ih hn.tail hs, List.mem_cons]
      constructor
      · rintro (heq | h | h)
        · cases heq
          exact Or.inr ⟨hk, Or.inl rfl⟩
        · exact Or.inl h
        · exact Or.inr ⟨h.1, Or.inr h.2⟩
      · rintro (h | ⟨hne, heq | hm⟩)
        · exact Or.inr (Or.inl h)
        · exact Or.inl heq
        · exact Or.inr (Or.inr ⟨hne, hm⟩)
    · have hk : k₀ = key := by omega
      subst hk
      have hout : ∀ w, (k₀, w) ∉ l := fun w hw => absurd (hlt _ hw) (lt_irrefl _)
      simp only [List.mem_cons, Prod.mk.injEq]
      constructor
      · rintro (h | h)
        · exact Or.inl h
        · refine Or.inr ⟨?_, Or.inr h⟩
          rintro rfl
          exact hout w h
      · rintro (h | ⟨hne, h | h⟩)
        · exact Or.inl h
        · exact absurd h.1 hne
        · exact Or.inr h
    · have hout : ∀ w, (key, w) ∉ (k₀, w₀) :: l := by
        intro w hw
        rcases List.mem_cons.mp hw with heq | hw
        · cases heq
          omega
        · have := hlt _ hw
          simp only at this
          omega
      rw [List.mem_cons]
      constructor
      · rintro (heq | h)
        · cases heq
          exact Or.inl ⟨rfl, rfl⟩
        · refine Or.inr ⟨?_, h⟩
          rintro rfl
          exact hout w h
      · rintro (⟨rfl, rfl⟩ | h)
        · exact Or.inl rfl
        · exact Or.inr h.2

/-- A store keeps the keys sorted. -/
theorem slPut_sorted (hn : Near key l) (hs : l.Pairwise fun a b => a.1 < b.1) :
    (slPut key v l).Pairwise fun a b => a.1 < b.1 := by
  induction l with
  | nil => simp [slPut]
  | cons e l ih =>
    obtain ⟨k₀, w₀⟩ := e
    obtain ⟨hlt, hs'⟩ := List.pairwise_cons.mp hs
    have hd := hn.keyDiff List.mem_cons_self
    simp only at hd hlt
    simp only [slPut]
    rw [hd]
    split_ifs with h₁ h₂
    · refine List.pairwise_cons.mpr ⟨?_, ih hn.tail hs'⟩
      rintro ⟨k, w⟩ hkw
      rcases (mem_slPut_iff hn.tail hs').mp hkw with ⟨rfl, _⟩ | ⟨_, hm⟩
      · simp only
        omega
      · exact hlt _ hm
    · exact List.pairwise_cons.mpr ⟨hlt, hs'⟩
    · refine List.pairwise_cons.mpr ⟨?_, hs⟩
      rintro ⟨k, w⟩ hkw
      rcases List.mem_cons.mp hkw with heq | hm
      · cases heq
        simp only
        omega
      · have := hlt _ hm
        simp only at this ⊢
        omega

/-- What is left after a removal. -/
theorem mem_slRemove_iff (hn : Near key l) (hs : l.Pairwise fun a b => a.1 < b.1) {k w : ℕ} :
    (k, w) ∈ slRemove key l ↔ k ≠ key ∧ (k, w) ∈ l := by
  induction l with
  | nil => simp [slRemove]
  | cons e l ih =>
    obtain ⟨k₀, w₀⟩ := e
    obtain ⟨hlt, hs⟩ := List.pairwise_cons.mp hs
    have hd := hn.keyDiff List.mem_cons_self
    simp only at hd hlt
    have hout : ¬ ((k₀ : ℤ) - key < 0) → ∀ w, (key, w) ∉ l := by
      intro hge w hw
      have := hlt _ hw
      simp only at this
      omega
    simp only [slRemove]
    rw [hd]
    split_ifs with h₁ h₂
    · rw [List.mem_cons, ih hn.tail hs, List.mem_cons]
      constructor
      · rintro (heq | h)
        · cases heq
          exact ⟨by omega, Or.inl rfl⟩
        · exact ⟨h.1, Or.inr h.2⟩
      · rintro ⟨hne, heq | hm⟩
        · exact Or.inl heq
        · exact Or.inr ⟨hne, hm⟩
    · constructor
      · intro h
        refine ⟨?_, List.mem_cons_of_mem _ h⟩
        rintro rfl
        exact hout h₁ w h
      · rintro ⟨hne, h⟩
        rcases List.mem_cons.mp h with heq | hm
        · cases heq
          omega
        · exact hm
    · constructor
      · intro h
        refine ⟨?_, h⟩
        rintro rfl
        rcases List.mem_cons.mp h with heq | hm
        · cases heq
          omega
        · exact hout h₁ w hm
      · exact fun h => h.2

/-- A removal takes away only. -/
theorem slRemove_sublist (key : ℕ) (l : List (ℕ × ℕ)) : (slRemove key l).Sublist l := by
  induction l with
  | nil => exact List.Sublist.refl _
  | cons e l ih =>
    obtain ⟨k₀, w₀⟩ := e
    simp only [slRemove]
    split_ifs
    · exact ih.cons_cons _
    · exact List.sublist_cons_self _ _
    · exact List.Sublist.refl _

/-- What is there after a store. -/
theorem mem_slPut_imp {e : ℕ × ℕ} (h : e ∈ slPut key v l) : e.2 = v ∨ e ∈ l := by
  induction l with
  | nil =>
    rw [slPut, List.mem_singleton] at h
    exact Or.inl (congrArg Prod.snd h)
  | cons e₀ l ih =>
    obtain ⟨k₀, w₀⟩ := e₀
    simp only [slPut] at h
    split_ifs at h
    · rcases List.mem_cons.mp h with heq | hm
      · exact Or.inr (heq ▸ List.mem_cons_self)
      · exact (ih hm).imp id (List.mem_cons_of_mem _)
    · rcases List.mem_cons.mp h with heq | hm
      · exact Or.inl (congrArg Prod.snd heq)
      · exact Or.inr (List.mem_cons_of_mem _ hm)
    · rcases List.mem_cons.mp h with heq | hm
      · exact Or.inl (congrArg Prod.snd heq)
      · exact Or.inr hm

/-- A value that is found is there. -/
theorem slFind_mem {w : ℕ} (h : slFind key l = some w) : ∃ e ∈ l, e.2 = w := by
  induction l with
  | nil => cases h
  | cons e l ih =>
    obtain ⟨k₀, w₀⟩ := e
    simp only [slFind] at h
    split_ifs at h
    · obtain ⟨e', he', hw⟩ := ih h
      exact ⟨e', List.mem_cons_of_mem _ he', hw⟩
    · cases h
      exact ⟨_, List.mem_cons_self, rfl⟩

end Entries

/-! ## One call of `sl_cas` -/

/-- What a fitting call can do: the value it returns and the list it leaves. -/
inductive CasOutcome (key expectation new : ℕ) (l : List (ℕ × ℕ)) : ℕ → List (ℕ × ℕ) → Prop
  | reported {n : ℕ} : slFind key l = some n → n ≠ 0 → expectation = 0 →
      CasOutcome key expectation new l n l
  | stored : slFind key l = some expectation → expectation ≠ 0 →
      CasOutcome key expectation new l expectation (slPut key new l)
  | already : slFind key l = some new → expectation ≠ 0 → expectation ≠ new →
      CasOutcome key expectation new l new l
  | missing : slFind key l = none → expectation ≠ 0 → CasOutcome key expectation new l 0 l
  | inserted : slFind key l = none → expectation = 0 →
      CasOutcome key expectation new l 0 (slPut key new l)

/-- The values in `active_` are counts. -/
def Counts (l : List (ℕ × ℕ)) : Prop := ∀ e ∈ l, 0 < e.2 ∧ e.2 < 2 ^ 32

/-- A fitting call returns. -/
theorem slCas_outcome {key expectation new : ℕ} {l : List (ℕ × ℕ)} (hl : Counts l)
    (hexp : expectation < 2 ^ 32) (hfit : CasFits key expectation new l) :
    ∃ ret l', slCas key expectation new l = some (ret, l')
      ∧ CasOutcome key expectation new l ret l' := by
  obtain ⟨_, _, hv⟩ := hfit
  unfold slCas
  cases hf : slFind key l with
  | none =>
    by_cases h0 : expectation = 0
    · refine ⟨0, _, ?_, CasOutcome.inserted hf h0⟩
      simp [h0, expectDoesNotExist, doesNotExist]
    · refine ⟨0, l, ?_, CasOutcome.missing hf h0⟩
      have hw : expectation ≠ expectWhatever := by
        unfold expectWhatever
        omega
      simp [h0, hw, expectDoesNotExist, doesNotExist]
  | some n =>
    obtain ⟨e, he, rfl⟩ := slFind_mem hf
    have hn : e.2 ≠ doesNotExist := (hl e he).1.ne'
    by_cases h0 : expectation = 0
    · refine ⟨e.2, l, ?_, CasOutcome.reported hf hn h0⟩
      simp [hn, h0, expectDoesNotExist]
    · rw [hf] at hv
      have h0' : ¬ expectation = expectDoesNotExist := h0
      simp only [if_neg hn, if_neg h0']
      by_cases heq : e.2 = expectation
      · rw [heq] at hf ⊢
        exact ⟨_, _, rfl, CasOutcome.stored hf h0⟩
      · have hnew : e.2 = new := (hv h0 e.2 rfl).resolve_left heq
        rw [hnew] at hf heq ⊢
        rw [slPut_of_slFind hf]
        exact ⟨_, _, rfl, CasOutcome.already hf h0 (Ne.symm heq)⟩

section Outcome

variable {key expectation new ret : ℕ} {l l' : List (ℕ × ℕ)}

/-- `sl_cas` returns a 32-bit count. -/
theorem CasOutcome.ret_lt (h : CasOutcome key expectation new l ret l') (hl : Counts l) :
    ret < 2 ^ 32 := by
  have hfind : ∀ {n}, slFind key l = some n → n < 2 ^ 32 := by
    intro n hf
    obtain ⟨e, he, rfl⟩ := slFind_mem hf
    exact (hl e he).2
  cases h with
  | reported hf _ _ => exact hfind hf
  | stored hf _ => exact hfind hf
  | already hf _ _ => exact hfind hf
  | missing | inserted => decide

/-- It stores one. -/
theorem CasOutcome.counts (h : CasOutcome key expectation new l ret l') (hl : Counts l)
    (hnew : 0 < new) (hlt : new < 2 ^ 32) : Counts l' := by
  have hput : Counts (slPut key new l) := by
    intro e he
    rcases mem_slPut_imp he with heq | hm
    · rw [heq]
      exact ⟨hnew, hlt⟩
    · exact hl e hm
  cases h with
  | reported | already | missing => exact hl
  | stored | inserted => exact hput

end Outcome

/-- `countCas` on a fitting call. -/
theorem countCas_outcome {s s' : Shared} {rv old new : ℕ} {again pc' : Pc} {next : ℕ → Pc}
    (hl : Counts s.active) (hold : old < 2 ^ 32) (hfit : CasFits rv old new s.active)
    (h : countCas s rv old new again next = (s', pc')) :
    ∃ ret, s'.version = s.version ∧ pc' = next ret ∧ ret < 2 ^ 32
      ∧ CasOutcome rv old new s.active ret s'.active := by
  obtain ⟨ret, l', hcas, hout⟩ := slCas_outcome hl hold hfit
  have hlt := hout.ret_lt hl
  rw [countCas, hcas] at h
  cases h
  exact ⟨ret, rfl, by rw [Nat.mod_eq_of_lt hlt], hlt, hout⟩

/-- The sum of `txn_begin` has 32 bits. -/
theorem incr_lt (n : ℕ) : incr n < 2 ^ 32 := Nat.mod_lt _ (by decide)

/-- The difference has 32 bits. -/
theorem decr_lt (n : ℕ) : decr n < 2 ^ 32 := Nat.mod_lt _ (by decide)

/-- The sum does not wrap below the bound. -/
theorem incr_eq {n : ℕ} (h : 0 < incr n) (hn : n < 2 ^ 32) : incr n = n + 1 := by
  unfold incr at *
  omega

/-- The difference of a count that is not 0. -/
theorem decr_eq {n : ℕ} (h0 : n ≠ 0) (hn : n < 2 ^ 32) : decr n = n - 1 := by
  unfold decr
  omega

/-! ## The transactions that count -/

/-- The transaction has raised the count of `v` and not lowered it yet. -/
def Pc.Holds (v : ℕ) : Pc → Prop
  | .idle | .beginVersion | .beginCas _ _ => False
  | .beginCheck rv | .undoCas rv _ | .running rv | .commitAdd rv | .commitCas rv _
  | .commitVersion rv _ | .commitRemove rv => rv = v

/-- The transactions counted at version `v`. -/
def holders (c : Conf Shared Pc) (v : ℕ) : Set ℕ := { t | (c.thread t).Holds v }

/-- `n` transactions are counted at version `v`. -/
def Count (c : Conf Shared Pc) (v n : ℕ) : Prop := (holders c v).encard = n

section Count

variable {c c' : Conf Shared Pc} {t v n : ℕ} {pc' : Pc}

/-- There is one count. -/
theorem Count.unique {m : ℕ} (hn : Count c v n) (hm : Count c v m) : n = m := by
  unfold Count at hn hm
  rw [hn] at hm
  exact_mod_cast hm

/-- A thread that is counted makes it positive. -/
theorem Count.pos (h : Count c v n) (ht : (c.thread t).Holds v) : n ≠ 0 := by
  rintro rfl
  have hempty : holders c v = ∅ := Set.encard_eq_zero.mp (by exact_mod_cast h)
  have hmem : t ∈ holders c v := ht
  rw [hempty] at hmem
  exact hmem

/-- The count 1 is that of one thread. -/
theorem Count.eq_of_one {u : ℕ} (h : Count c v 1) (ht : (c.thread t).Holds v)
    (hu : (c.thread u).Holds v) : t = u := by
  obtain ⟨x, hx⟩ := Set.encard_eq_one.mp (by exact_mod_cast h : (holders c v).encard = 1)
  have ht' : t ∈ holders c v := ht
  have hu' : u ∈ holders c v := hu
  rw [hx] at ht' hu'
  exact ht'.trans hu'.symm

/-- A step that does not change whether `t` counts at `v`. -/
theorem holders_eq (hthr : c'.thread = Function.update c.thread t pc')
    (h : pc'.Holds v ↔ (c.thread t).Holds v) : holders c' v = holders c v := by
  ext u
  simp only [holders, Set.mem_ofPred_eq, hthr]
  by_cases hu : u = t
  · subst hu
    rw [Function.update_self]
    exact h
  · rw [Function.update_of_ne hu]

/-- A step that takes one. -/
theorem Count.raise (hc : Count c v n) (hthr : c'.thread = Function.update c.thread t pc')
    (h : ¬ (c.thread t).Holds v) (h' : pc'.Holds v) : Count c' v (n + 1) := by
  have hset : holders c' v = insert t (holders c v) := by
    ext u
    simp only [holders, Set.mem_ofPred_eq, Set.mem_insert_iff, hthr]
    by_cases hu : u = t
    · subst hu
      rw [Function.update_self]
      exact ⟨fun _ => Or.inl rfl, fun _ => h'⟩
    · rw [Function.update_of_ne hu]
      exact ⟨Or.inr, fun hx => hx.resolve_left hu⟩
  have hmem : t ∉ holders c v := h
  unfold Count at *
  rw [hset, Set.encard_insert_of_notMem hmem, hc]
  norm_cast

/-- A step that gives one up. -/
theorem Count.lower (hc : Count c v (n + 1)) (hthr : c'.thread = Function.update c.thread t pc')
    (h : (c.thread t).Holds v) (h' : ¬ pc'.Holds v) : Count c' v n := by
  have hset : holders c' v = holders c v \ {t} := by
    ext u
    simp only [holders, Set.mem_ofPred_eq, Set.mem_sdiff, Set.mem_singleton_iff, hthr]
    by_cases hu : u = t
    · subst hu
      rw [Function.update_self]
      exact ⟨fun hx => absurd hx h', fun hx => absurd rfl hx.2⟩
    · rw [Function.update_of_ne hu]
      exact ⟨fun hx => ⟨hx, hu⟩, And.left⟩
  have hmem : t ∈ holders c v := h
  unfold Count at *
  have hadd := Set.encard_sdiff_singleton_add_one hmem
  rw [hc, ← hset] at hadd
  have hfin : (holders c' v).encard ≠ ⊤ := by
    intro htop
    rw [htop] at hadd
    exact absurd hadd (by norm_cast)
  obtain ⟨m, hm⟩ := ENat.ne_top_iff_exists.mp hfin
  rw [← hm] at hadd ⊢
  have : m + 1 = n + 1 := by exact_mod_cast hadd
  exact_mod_cast Nat.succ_injective this

end Count

/-! ## The invariant -/

/-- `txn_begin` is bound for its undo loop: its read version is out of date, or it
is there already. -/
def Doomed (s : Shared) : Pc → Prop
  | .beginCas rv _ | .beginCheck rv => rv ≠ s.version
  | .undoCas _ _ => True
  | _ => False

/-- What holds of the locals of one transaction. -/
def Local (s : Shared) : Pc → Prop
  | .idle | .beginVersion => True
  | .beginCas rv old => rv ≤ s.version ∧ old < 2 ^ 32
  | .beginCheck rv | .running rv | .commitAdd rv => rv ≤ s.version
  | .undoCas _ old => old = 1
  | .commitCas rv old => rv < s.version ∧ old < 2 ^ 32
  | .commitVersion rv _ | .commitRemove rv => rv < s.version

/-- The part of the invariant that always holds. -/
structure Bounds (c : Conf Shared Pc) : Prop where
  counts : Counts c.shared.active
  locals : ∀ t, Local c.shared (c.thread t)

/-- The transaction found itself the last one at its read version. -/
def Pc.Last (v : ℕ) : Pc → Prop
  | .commitVersion rv _ | .commitRemove rv => rv = v
  | _ => False

/-- The part that holds while nobody is doomed. -/
structure Exact (c : Conf Shared Pc) : Prop where
  sorted : c.shared.active.Pairwise fun a b => a.1 < b.1
  finite : ∀ v, ∃ n, Count c v n
  entry_iff : ∀ v n, (v, n) ∈ c.shared.active ↔ n ≠ 0 ∧ Count c v n
  last : ∀ t v, (c.thread t).Last v → Count c v 1

/-- The invariant. -/
structure Inv (c : Conf Shared Pc) : Prop where
  bounds : Bounds c
  exact_or : (∃ t, Doomed c.shared (c.thread t)) ∨ Exact c

/-! ## The part that always holds -/

section Step

variable {c c' : Conf Shared Pc} {s s' : Shared} {t : ℕ} {pc pc' : Pc} {cmd : Cmd}

/-- `version_` grows, and the step of `t` keeps its own local facts. -/
theorem step_bounds (hs : Counts s.active) (hl : Local s pc) (hfit : Fits t s pc cmd)
    (hstep : step t s pc cmd = some (s', pc')) :
    Counts s'.active ∧ Local s' pc' ∧ s.version ≤ s'.version := by
  cases pc with
  | idle =>
    cases cmd <;> cases hstep
    exact ⟨hs, trivial, le_rfl⟩
  | beginVersion =>
    cases cmd <;> cases hstep
    exact ⟨hs, ⟨le_rfl, by decide⟩, le_rfl⟩
  | beginCas rv old =>
    cases cmd <;> simp only [step, reduceCtorEq, Option.some.injEq] at hstep
    obtain ⟨ret, hv, rfl, hlt, hout⟩ := countCas_outcome hs hl.2 hfit hstep
    refine ⟨hout.counts hs hfit.2.1 (incr_lt old), ?_, hv.ge⟩
    split
    · exact hl.1.trans hv.ge
    · exact ⟨hl.1.trans hv.ge, hlt⟩
  | beginCheck rv =>
    cases cmd <;> simp only [step, reduceCtorEq] at hstep
    split at hstep <;> cases hstep
    · exact ⟨hs, hl, le_rfl⟩
    · exact ⟨hs, rfl, le_rfl⟩
  | undoCas rv old =>
    -- the first call of the undo loop stores 0
    have hold : old = 1 := hl
    subst hold
    cases cmd <;> simp only [step, reduceCtorEq] at hstep
    exact absurd hfit.2.1 (by decide)
  | running rv =>
    cases cmd <;> cases hstep
    exact ⟨hs, hl, le_rfl⟩
  | commitAdd rv =>
    cases cmd <;> cases hstep
    have hv : s.version + 1 < 2 ^ 64 := hfit
    have hrv : rv ≤ s.version := hl
    simp only [Local, Nat.mod_eq_of_lt hv]
    exact ⟨hs, ⟨by omega, by decide⟩, by omega⟩
  | commitCas rv old =>
    cases cmd <;> simp only [step, reduceCtorEq, Option.some.injEq] at hstep
    obtain ⟨ret, hv, rfl, hlt, hout⟩ := countCas_outcome hs hl.2 hfit hstep
    refine ⟨hout.counts hs hfit.2.1 (decr_lt old), ?_, hv.ge⟩
    have hrv : rv < s'.version := hl.1.trans_le hv.ge
    split_ifs
    · exact hrv
    · trivial
    · exact ⟨hrv, hlt⟩
  | commitVersion rv old =>
    cases cmd <;> simp only [step, reduceCtorEq] at hstep
    have hrv : rv < s.version := hl
    rw [if_pos hrv.ne] at hstep
    cases hstep
    exact ⟨hs, hrv, le_rfl⟩
  | commitRemove rv =>
    cases cmd <;> cases hstep
    exact ⟨fun e he => hs e ((slRemove_sublist rv s.active).mem he), trivial, le_rfl⟩

/-- What a thread rests on stays. -/
theorem Local.mono (hl : Local s pc) (hv : s.version ≤ s'.version) : Local s' pc := by
  cases pc with
  | idle | beginVersion => trivial
  | beginCas rv old => exact ⟨hl.1.trans hv, hl.2⟩
  | beginCheck rv | running rv | commitAdd rv => exact le_trans hl hv
  | undoCas rv old => exact hl
  | commitCas rv old => exact ⟨hl.1.trans_le hv, hl.2⟩
  | commitVersion rv old | commitRemove rv => exact lt_of_lt_of_le hl hv

/-- Once doomed, always doomed: the version only grows, and the undo loop cannot
take a fitting step. -/
theorem Doomed.mono (hd : Doomed s pc) (hl : Local s pc) (hv : s.version ≤ s'.version) :
    Doomed s' pc := by
  cases pc with
  | beginCas rv old =>
    have hne : rv ≠ s.version := hd
    have hle : rv ≤ s.version := hl.1
    show rv ≠ s'.version
    omega
  | beginCheck rv =>
    have hne : rv ≠ s.version := hd
    have hle : rv ≤ s.version := hl
    show rv ≠ s'.version
    omega
  | undoCas => trivial
  | _ => exact absurd hd (by simp [Doomed])

/-- A CAS that will fail goes on to fail. -/
theorem Doomed.step (hs : Counts s.active) (hl : Local s pc) (hfit : Fits t s pc cmd)
    (hd : Doomed s pc) (hstep : step t s pc cmd = some (s', pc')) : Doomed s' pc' := by
  cases pc with
  | beginCas rv old =>
    cases cmd <;> simp only [Active.step, reduceCtorEq, Option.some.injEq] at hstep
    obtain ⟨ret, hv, rfl, hlt, hout⟩ := countCas_outcome hs hl.2 hfit hstep
    have hne : rv ≠ s'.version := hv ▸ hd
    split <;> exact hne
  | beginCheck rv =>
    cases cmd <;> simp only [Active.step, reduceCtorEq] at hstep
    rw [if_neg hd] at hstep
    cases hstep
    trivial
  | undoCas rv old =>
    have hold : old = 1 := hl
    subst hold
    cases cmd <;> simp only [Active.step, reduceCtorEq] at hstep
    exact absurd hfit.2.1 (by decide)
  | _ => exact absurd hd (by simp [Doomed])

end Step

/-! ## The part that holds while nobody is doomed -/

section Exact

variable {c c' : Conf Shared Pc} {t rv n : ℕ} {pc' : Pc}

/-- A step that moves no count. -/
theorem Exact.keep (h : Exact c) (hthr : c'.thread = Function.update c.thread t pc')
    (hact : c'.shared.active = c.shared.active)
    (hh : ∀ v, pc'.Holds v ↔ (c.thread t).Holds v)
    (hlast : ∀ v, pc'.Last v → Count c v 1) : Exact c' := by
  have hcount : ∀ {v n}, Count c' v n ↔ Count c v n := by
    intro v n
    unfold Count
    rw [holders_eq hthr (hh v)]
  refine ⟨hact ▸ h.sorted, fun v => ?_, fun v n => ?_, fun u v hu => ?_⟩
  · obtain ⟨n, hn⟩ := h.finite v
    exact ⟨n, hcount.mpr hn⟩
  · rw [hact, hcount]
    exact h.entry_iff v n
  · rw [hcount]
    rw [hthr] at hu
    by_cases hut : u = t
    · subst hut
      rw [Function.update_self] at hu
      exact hlast v hu
    · rw [Function.update_of_ne hut] at hu
      exact h.last u v hu

/-- A step that moves the count of one version, in `active_` as among the
transactions. -/
theorem Exact.move (h : Exact c) (hthr : c'.thread = Function.update c.thread t pc')
    (hh : ∀ v, v ≠ rv → (pc'.Holds v ↔ (c.thread t).Holds v))
    (hn : Count c' rv n)
    (hsorted : c'.shared.active.Pairwise fun a b => a.1 < b.1)
    (hmem : ∀ v m, (v, m) ∈ c'.shared.active
      ↔ (v = rv ∧ m ≠ 0 ∧ m = n) ∨ (v ≠ rv ∧ (v, m) ∈ c.shared.active))
    (hpc : ∀ v, ¬ pc'.Last v) (hother : ∀ u, u ≠ t → ¬ (c.thread u).Last rv) : Exact c' := by
  have hcount : ∀ {v n}, v ≠ rv → (Count c' v n ↔ Count c v n) := by
    intro v n hv
    unfold Count
    rw [holders_eq hthr (hh v hv)]
  refine ⟨hsorted, fun v => ?_, fun v m => ?_, fun u v hu => ?_⟩
  · by_cases hv : v = rv
    · subst hv
      exact ⟨n, hn⟩
    · obtain ⟨m, hm⟩ := h.finite v
      exact ⟨m, (hcount hv).mpr hm⟩
  · rw [hmem]
    by_cases hv : v = rv
    · subst hv
      constructor
      · rintro (⟨_, hm, rfl⟩ | ⟨hne, _⟩)
        · exact ⟨hm, hn⟩
        · exact absurd rfl hne
      · rintro ⟨hm, hcm⟩
        exact Or.inl ⟨rfl, hm, hcm.unique hn⟩
    · rw [hcount hv, ← h.entry_iff]
      constructor
      · rintro (⟨heq, _⟩ | ⟨_, hm⟩)
        · exact absurd heq hv
        · exact hm
      · exact fun hm => Or.inr ⟨hv, hm⟩
  · rw [hthr] at hu
    by_cases hut : u = t
    · subst hut
      rw [Function.update_self] at hu
      exact absurd hu (hpc v)
    · rw [Function.update_of_ne hut] at hu
      have hv : v ≠ rv := by
        rintro rfl
        exact hother u hut hu
      exact (hcount hv).mpr (h.last u v hu)

/-- The last one is counted. -/
theorem Pc.Last.holds {v : ℕ} {pc : Pc} (h : pc.Last v) : pc.Holds v := by
  cases pc with
  | commitVersion | commitRemove => exact h
  | _ => exact absurd h (by simp [Pc.Last])

/-- The list after a store, in the form `Exact.move` asks for. -/
theorem mem_slPut_count {key m : ℕ} {l : List (ℕ × ℕ)} (hn : Near key l)
    (hs : l.Pairwise fun a b => a.1 < b.1) (hm : m ≠ 0) (v w : ℕ) :
    (v, w) ∈ slPut key m l ↔ (v = key ∧ w ≠ 0 ∧ w = m) ∨ (v ≠ key ∧ (v, w) ∈ l) := by
  rw [mem_slPut_iff hn hs]
  constructor
  · rintro (⟨hv, rfl⟩ | h)
    · exact Or.inl ⟨hv, hm, rfl⟩
    · exact Or.inr h
  · rintro (⟨hv, _, rfl⟩ | h)
    · exact Or.inl ⟨hv, rfl⟩
    · exact Or.inr h

/-- The count of a version is what `sl_cas` finds. -/
theorem Exact.slFind_eq (h : Exact c) (hnear : Near rv c.shared.active) (hn : Count c rv n) :
    slFind rv c.shared.active = if n = 0 then none else some n := by
  split_ifs with h0
  · cases hf : slFind rv c.shared.active with
    | none => rfl
    | some m =>
      obtain ⟨hm, hcm⟩ := (h.entry_iff rv m).mp (mem_of_slFind hnear hf)
      exact absurd ((hcm.unique hn).trans h0) hm
  · exact slFind_of_mem hnear h.sorted ((h.entry_iff rv n).mpr ⟨h0, hn⟩)

/-- `txn_begin`: the call either learns the count or raises it. -/
theorem Exact.beginCas {old ret : ℕ} (h : Exact c) (hl : rv = c.shared.version ∧ old < 2 ^ 32)
    (hlocals : ∀ u, Local c.shared (c.thread u)) (hpc : c.thread t = .beginCas rv old)
    (hfit : CasFits rv old (incr old) c.shared.active)
    (hout : CasOutcome rv old (incr old) c.shared.active ret c'.shared.active)
    (hthr : c'.thread = Function.update c.thread t
      (if ret = old then .beginCheck rv else .beginCas rv ret)) : Exact c' := by
  have hpc0 : ∀ v, ¬ (c.thread t).Holds v := fun v => by simp [hpc, Pc.Holds]
  -- whoever is last at a version is past the increment of `version_`
  have hother : ∀ u, u ≠ t → ¬ (c.thread u).Last rv := by
    intro u _ hu
    have hlu := hlocals u
    cases hpu : c.thread u <;> rw [hpu] at hu hlu <;> try exact hu
    all_goals
      have hlt : rv < c.shared.version := (hu : _ = rv) ▸ hlu
      exact absurd hl.1 hlt.ne
  obtain ⟨n, hn⟩ := h.finite rv
  have hfind := h.slFind_eq hfit.1 hn
  have hsame : ∀ m, c'.shared.active = c.shared.active →
      c'.thread = Function.update c.thread t (.beginCas rv m) → Exact c' := by
    intro m hact hthr'
    refine h.keep hthr' hact (fun v => ?_) (fun v hv => absurd hv (by simp [Pc.Last]))
    simp [hpc, Pc.Holds]
  have hraise : n = old → c'.shared.active = slPut rv (incr old) c.shared.active →
      c'.thread = Function.update c.thread t (.beginCheck rv) → Exact c' := by
    rintro rfl hact hthr'
    have hincr := incr_eq hfit.2.1 hl.2
    refine h.move hthr' (fun v hv => ?_) (hn.raise hthr' (hpc0 rv) rfl) ?_ ?_ (fun v => ?_) hother
    · simp [hpc, Pc.Holds, Ne.symm hv]
    · rw [hact]
      exact slPut_sorted hfit.1 h.sorted
    · rw [hact, hincr]
      exact mem_slPut_count hfit.1 h.sorted (Nat.succ_ne_zero n)
    · simp [Pc.Last]
  generalize hact : c'.shared.active = l' at hout
  cases hout with
  | reported hf h0 hexp =>
    rw [if_neg (by omega)] at hthr
    exact hsame ret hact hthr
  | stored hf hexp =>
    rw [if_pos rfl] at hthr
    refine hraise ?_ hact hthr
    rw [hf] at hfind
    split_ifs at hfind
    exact (Option.some.inj hfind).symm
  | already hf hexp hne =>
    rw [if_neg hne.symm] at hthr
    exact hsame _ hact hthr
  | missing hf hexp =>
    rw [if_neg (Ne.symm hexp)] at hthr
    exact hsame 0 hact hthr
  | inserted hf hexp =>
    rw [if_pos hexp.symm] at hthr
    refine hraise ?_ hact hthr
    rw [hf] at hfind
    split_ifs at hfind with h0
    rw [h0, hexp]

/-- `txn_commit`: the call learns the count, lowers it, or finds the transaction the
last one at its version. -/
theorem Exact.commitCas {old ret : ℕ} (h : Exact c) (hold : old < 2 ^ 32)
    (hpc : c.thread t = .commitCas rv old)
    (hfit : CasFits rv old (decr old) c.shared.active)
    (hout : CasOutcome rv old (decr old) c.shared.active ret c'.shared.active)
    (hthr : c'.thread = Function.update c.thread t
      (if ret = 1 then .commitVersion rv old
        else if old = ret then .idle else .commitCas rv ret)) : Exact c' := by
  have hpcrv : (c.thread t).Holds rv := by
    rw [hpc]
    rfl
  obtain ⟨n, hn⟩ := h.finite rv
  have hn0 : n ≠ 0 := hn.pos hpcrv
  have hfind := h.slFind_eq hfit.1 hn
  rw [if_neg hn0] at hfind
  -- no count moves: `ret` is the count found
  have hsame : ret = n → old ≠ n → c'.shared.active = c.shared.active → Exact c' := by
    rintro rfl hne hact
    refine h.keep hthr hact (fun v => ?_) (fun v hv => ?_)
    · rw [if_neg hne]
      split_ifs <;> simp [hpc, Pc.Holds]
    · rw [if_neg hne] at hv
      split_ifs at hv with h1
      · have hrv : rv = v := hv
        rw [← hrv, ← h1]
        exact hn
      · exact absurd hv (by simp [Pc.Last])
  generalize hact : c'.shared.active = l' at hout
  cases hout with
  | reported hf h0 hexp =>
    have hret : ret = n := Option.some.inj (hf.symm.trans hfind)
    exact hsame hret (by omega) hact
  | stored hf hexp =>
    have hon : old = n := Option.some.inj (hf.symm.trans hfind)
    subst hon
    have hdecr := decr_eq hexp hold
    have hpos := hfit.2.1
    rw [if_neg (by omega), if_pos rfl] at hthr
    obtain ⟨m, rfl⟩ : ∃ m, old = m + 1 := ⟨old - 1, by omega⟩
    refine h.move hthr (fun v hv => ?_) (hn.lower hthr hpcrv id) ?_ ?_ (fun v => ?_)
      (fun u hut hu => ?_)
    · simp [hpc, Pc.Holds, Ne.symm hv]
    · rw [hact]
      exact slPut_sorted hfit.1 h.sorted
    · rw [hact, hdecr, Nat.add_sub_cancel]
      exact mem_slPut_count hfit.1 h.sorted (by omega)
    · simp [Pc.Last]
    · have h1 := (h.last u rv hu).unique hn
      omega
  | already hf hexp hne =>
    have hret : decr old = n := Option.some.inj (hf.symm.trans hfind)
    exact hsame hret (by omega) hact
  | missing hf hexp =>
    rw [hf] at hfind
    cases hfind
  | inserted hf hexp =>
    rw [hf] at hfind
    cases hfind

/-- `txn_commit` of the last transaction at its version. -/
theorem Exact.commitRemove (h : Exact c) (hpc : c.thread t = .commitRemove rv)
    (hnear : Near rv c.shared.active)
    (hact : c'.shared.active = slRemove rv c.shared.active)
    (hthr : c'.thread = Function.update c.thread t .idle) : Exact c' := by
  have hlast : (c.thread t).Last rv := by
    rw [hpc]
    rfl
  have hone := h.last t rv hlast
  refine h.move hthr (fun v hv => ?_) (Count.lower (n := 0) hone hthr hlast.holds id) ?_ ?_
    (fun v => ?_) (fun u hut hu => ?_)
  · simp [hpc, Pc.Holds, Ne.symm hv]
  · rw [hact]
    exact h.sorted.sublist (slRemove_sublist rv _)
  · intro v m
    rw [hact, mem_slRemove_iff hnear h.sorted]
    constructor
    · exact Or.inr
    · rintro (⟨_, hm, h0⟩ | hm)
      · exact absurd h0 hm
      · exact hm
  · simp [Pc.Last]
  · exact hut (hone.eq_of_one hu.holds hlast.holds)

end Exact

/-! ## Whole runs -/

section Run

variable {c c' : Conf Shared Pc} {e : ℕ × Cmd}

/-- **One step keeps the counts exact.** -/
theorem Exact.step (h : Exact c) (hb : Bounds c) (hfit : onThread Fits c e)
    (hnot : ¬ Doomed c.shared (c.thread e.1)) (hstep : sys c e = some c') : Exact c' := by
  obtain ⟨pc', hprog, hthr⟩ := interleave_eq_some.mp hstep
  obtain ⟨t, cmd⟩ := e
  obtain ⟨s', thr'⟩ := c'
  have hl := hb.locals t
  simp only [onThread] at hfit hprog hthr hnot
  cases hpc : c.thread t with
  | idle | beginVersion =>
    rw [hpc] at hprog
    cases cmd <;> cases hprog
    exact h.keep hthr rfl (fun v => by simp [hpc, Pc.Holds])
      (fun v hv => absurd hv (by simp [Pc.Last]))
  | beginCas rv old =>
    rw [hpc] at hprog hfit hl hnot
    cases cmd <;> simp only [Active.step, reduceCtorEq, Option.some.injEq] at hprog
    obtain ⟨ret, _, rfl, _, hout⟩ := countCas_outcome hb.counts hl.2 hfit hprog
    exact h.beginCas ⟨not_not.mp hnot, hl.2⟩ hb.locals hpc hfit hout hthr
  | beginCheck rv =>
    rw [hpc] at hprog hnot
    cases cmd <;> simp only [Active.step, reduceCtorEq] at hprog
    rw [if_pos (not_not.mp hnot)] at hprog
    cases hprog
    exact h.keep hthr rfl (fun v => by simp [hpc, Pc.Holds])
      (fun v hv => absurd hv (by simp [Pc.Last]))
  | undoCas rv old =>
    rw [hpc] at hnot
    exact absurd trivial hnot
  | running rv =>
    rw [hpc] at hprog
    cases cmd <;> cases hprog
    exact h.keep hthr rfl (fun v => by simp [hpc, Pc.Holds])
      (fun v hv => absurd hv (by simp [Pc.Last]))
  | commitAdd rv =>
    rw [hpc] at hprog
    cases cmd <;> simp only [Active.step, reduceCtorEq, Option.some.injEq, Prod.mk.injEq] at hprog
    obtain ⟨hsh, rfl⟩ := hprog
    refine h.keep hthr (by rw [← hsh]) (fun v => by simp [hpc, Pc.Holds])
      (fun v hv => absurd hv (by simp [Pc.Last]))
  | commitCas rv old =>
    rw [hpc] at hprog hfit hl
    cases cmd <;> simp only [Active.step, reduceCtorEq, Option.some.injEq] at hprog
    obtain ⟨ret, _, rfl, _, hout⟩ := countCas_outcome hb.counts hl.2 hfit hprog
    exact h.commitCas hl.2 hpc hfit hout hthr
  | commitVersion rv old =>
    rw [hpc] at hprog hl
    cases cmd <;> simp only [Active.step, reduceCtorEq] at hprog
    have hrv : rv < c.shared.version := hl
    rw [if_pos hrv.ne] at hprog
    cases hprog
    refine h.keep hthr rfl (fun v => by simp [hpc, Pc.Holds]) (fun v hv => h.last t v ?_)
    rw [hpc]
    exact hv
  | commitRemove rv =>
    rw [hpc] at hprog hfit
    cases cmd <;> simp only [Active.step, reduceCtorEq, Option.some.injEq, Prod.mk.injEq] at hprog
    obtain ⟨hsh, rfl⟩ := hprog
    exact h.commitRemove hpc hfit (by rw [← hsh]) hthr

/-- One fitting step keeps the invariant. -/
theorem Inv.step (h : Inv c) (hfit : onThread Fits c e) (hstep : sys c e = some c') : Inv c' := by
  obtain ⟨pc', hprog, hthr⟩ := interleave_eq_some.mp hstep
  have hb := h.bounds
  obtain ⟨hcounts, hlocal, hv⟩ := step_bounds hb.counts (hb.locals e.1) hfit hprog
  refine ⟨⟨hcounts, fun u => ?_⟩, ?_⟩
  · rw [hthr]
    by_cases hu : u = e.1
    · subst hu
      rw [Function.update_self]
      exact hlocal
    · rw [Function.update_of_ne hu]
      exact (hb.locals u).mono hv
  · by_cases hd : ∃ u, Doomed c.shared (c.thread u)
    · obtain ⟨u, hd⟩ := hd
      refine Or.inl ⟨u, ?_⟩
      rw [hthr]
      by_cases hu : u = e.1
      · subst hu
        rw [Function.update_self]
        exact hd.step hb.counts (hb.locals e.1) hfit hprog
      · rw [Function.update_of_ne hu]
        exact hd.mono (hb.locals u) hv
    · have hexact := h.exact_or.resolve_left hd
      exact Or.inr (hexact.step hb hfit (fun hd' => hd ⟨e.1, hd'⟩) hstep)

/-- They are exact at the start. -/
theorem init_inv : Inv init := by
  have hempty : ∀ v, holders init v = ∅ := fun v => Set.eq_empty_of_forall_notMem fun _ h => h
  have hcount : ∀ v, Count init v 0 := fun v => by
    rw [Count, hempty v, Set.encard_empty]
    rfl
  refine ⟨⟨fun e he => absurd he List.not_mem_nil, fun _ => trivial⟩, Or.inr
    ⟨List.Pairwise.nil, fun v => ⟨0, hcount v⟩, fun v n => ?_, fun t v hv => absurd hv id⟩⟩
  constructor
  · exact fun h => absurd h List.not_mem_nil
  · rintro ⟨hn, hc⟩
    exact absurd (hc.unique (hcount v)) hn

/-- **They are exact in every run.** -/
theorem inv_run {es : List (ℕ × Cmd)} (h : Inv c) (hok : StepsMeet sys (onThread Fits) c es)
    (hrun : run sys c es = some c') : Inv c' :=
  run_invariant (fun _ _ _ hi hf hs => hi.step hf hs) h hok hrun

/-! ## Quiescent states -/

/-- Between calls those counted are the transactions in use. -/
theorem Quiescent.holders_eq (hq : Quiescent c) (v : ℕ) : holders c v = inUse c v := by
  ext t
  simp only [holders, inUse, Set.mem_ofPred_eq]
  rcases hq t with h | ⟨rv, h⟩
  · simp [h, Pc.Holds]
  · simp [h, Pc.Holds]

/-- With no call in progress nobody is doomed, and the counts are those of the
running transactions. -/
theorem Inv.countsMatch (h : Inv c) (hq : Quiescent c) : CountsMatch c := by
  have hexact : Exact c := by
    refine h.exact_or.resolve_left ?_
    rintro ⟨t, hd⟩
    rcases hq t with ht | ⟨rv, ht⟩ <;> simp [ht, Doomed] at hd
  have hentry : ∀ v n, (v, n) ∈ c.shared.active ↔ n ≠ 0 ∧ (inUse c v).encard = n := by
    intro v n
    rw [hexact.entry_iff, Count, hq.holders_eq]
  have hkeys : ∀ v, (∃ n, (v, n) ∈ c.shared.active) ↔ ∃ u, c.thread u = .running v := by
    intro v
    constructor
    · rintro ⟨n, hm⟩
      obtain ⟨hn, hcard⟩ := (hentry v n).mp hm
      have hne : (inUse c v).Nonempty := by
        rw [← Set.encard_ne_zero, hcard]
        exact_mod_cast hn
      exact hne
    · rintro ⟨u, hu⟩
      obtain ⟨n, hn⟩ := hexact.finite v
      refine ⟨n, (hexact.entry_iff v n).mpr ⟨hn.pos (t := u) ?_, hn⟩⟩
      rw [hu]
      rfl
  refine ⟨hexact.sorted, hentry, fun t v ht => ?_⟩
  cases hl : c.shared.active with
  | nil =>
    obtain ⟨n, hm⟩ := (hkeys v).mpr ⟨t, ht⟩
    rw [hl] at hm
    exact absurd hm List.not_mem_nil
  | cons e l =>
    have hs := hexact.sorted
    rw [hl] at hs
    constructor
    · exact (hkeys e.1).mp ⟨e.2, by rw [hl]; exact List.mem_cons_self⟩
    · intro w hw
      obtain ⟨n, hm⟩ := (hkeys w).mpr hw
      rw [hl] at hm
      rcases List.mem_cons.mp hm with heq | hm
      · exact le_of_eq (congrArg Prod.fst heq.symm)
      · exact (List.rel_of_pairwise_cons hs hm).le

/-! ## A transaction left alone -/

/-- How many steps a transaction needs at most until its call returns or it meets a
call that does not fit. -/
def rank (s : Shared) : Pc → ℕ
  | .idle | .running _ | .undoCas _ _ => 0
  | .beginVersion | .commitAdd _ => 4
  | .beginCas rv old => if slFind rv s.active = (if old = 0 then none else some old) then 2 else 3
  | .beginCheck _ | .commitRemove _ => 1
  | .commitCas rv old => if slFind rv s.active = (if old = 0 then none else some old) then 1 else 3
  | .commitVersion _ _ => 2

/-- The next call after one that did not leave the loop finds what it expects. -/
theorem CasOutcome.next_found {key expectation new ret : ℕ} {l l' : List (ℕ × ℕ)}
    (h : CasOutcome key expectation new l ret l') (hnew : 0 < new) (hret : ret ≠ expectation) :
    slFind key l' = if ret = 0 then none else some ret := by
  cases h with
  | reported hf h0 _ => rw [hf, if_neg h0]
  | stored _ _ => exact absurd rfl hret
  | already hf _ _ => rw [hf, if_neg hnew.ne']
  | missing hf _ => rw [hf, if_pos rfl]
  | inserted _ hexp => exact absurd hexp.symm hret

/-- A call that finds what it expects returns it. -/
theorem CasOutcome.ret_eq {key expectation new ret : ℕ} {l l' : List (ℕ × ℕ)}
    (h : CasOutcome key expectation new l ret l')
    (hf : slFind key l = if expectation = 0 then none else some expectation) :
    ret = expectation := by
  cases h with
  | reported hf' _ hexp =>
    rw [hf', if_pos hexp] at hf
    cases hf
  | stored _ _ => rfl
  | already hf' h0 hne =>
    rw [hf', if_neg h0] at hf
    exact absurd (Option.some.inj hf).symm hne
  | missing hf' h0 =>
    rw [hf', if_neg h0] at hf
    cases hf
  | inserted _ hexp => exact hexp.symm

/-- Every step of a loop on `active_` comes nearer to its end. -/
theorem rank_lt {s s' : Shared} {t : ℕ} {pc pc' : Pc} (hs : Counts s.active) (hl : Local s pc)
    (hfit : Fits t s pc .resume) (hstep : Active.step t s pc .resume = some (s', pc')) :
    rank s' pc' < rank s pc := by
  cases pc with
  | idle | running rv => cases hstep
  | beginVersion =>
    cases hstep
    simp only [rank]
    split_ifs <;> omega
  | beginCas rv old =>
    simp only [Active.step, Option.some.injEq] at hstep
    obtain ⟨ret, _, rfl, _, hout⟩ := countCas_outcome hs hl.2 hfit hstep
    by_cases hret : ret = old
    · rw [if_pos hret]
      simp only [rank]
      split_ifs <;> omega
    · rw [if_neg hret]
      simp only [rank]
      rw [if_pos (hout.next_found hfit.2.1 hret), if_neg (fun hf => hret (hout.ret_eq hf))]
      decide
  | beginCheck rv =>
    simp only [Active.step] at hstep
    split at hstep <;> cases hstep <;> simp only [rank] <;> decide
  | undoCas rv old =>
    have hold : old = 1 := hl
    subst hold
    exact absurd hfit.2.1 (by decide)
  | commitAdd rv =>
    cases hstep
    simp only [rank]
    split_ifs <;> omega
  | commitCas rv old =>
    simp only [Active.step, Option.some.injEq] at hstep
    obtain ⟨ret, _, rfl, _, hout⟩ := countCas_outcome hs hl.2 hfit hstep
    have hpos := hfit.2.1
    by_cases hret : ret = old
    · -- a count of 1 cannot be lowered by a fitting call
      have hne : ret ≠ 1 := by
        rintro rfl
        rw [← hret] at hpos
        exact absurd hpos (by decide)
      rw [if_neg hne, if_pos hret.symm]
      simp only [rank]
      split_ifs <;> omega
    · have hrank : rank s (.commitCas rv old) = 3 := by
        simp only [rank]
        rw [if_neg (fun hf => hret (hout.ret_eq hf))]
      rw [hrank]
      split_ifs with h1 h2
      · simp only [rank]
        omega
      · exact absurd h2.symm hret
      · simp only [rank]
        rw [if_pos (hout.next_found hpos hret)]
        decide
  | commitVersion rv old =>
    have hrv : rv < s.version := hl
    simp only [Active.step] at hstep
    rw [if_pos hrv.ne] at hstep
    cases hstep
    simp only [rank]
    omega
  | commitRemove rv =>
    cases hstep
    simp [rank]

/-- Four steps are enough. -/
theorem rank_le_four (s : Shared) (pc : Pc) : rank s pc ≤ 4 := by
  cases pc <;> simp only [rank] <;> (try split_ifs) <;> omega

/-- The call has returned. -/
def Pc.Returned (pc : Pc) : Prop := pc = .idle ∨ ∃ rv, pc = .running rv

/-- A call that has not returned can take a step. -/
theorem step_progress (t : ℕ) (s : Shared) (pc : Pc) :
    pc.Returned ∨ ∃ r, Active.step t s pc .resume = some r := by
  cases pc with
  | idle => exact Or.inl (Or.inl rfl)
  | running rv => exact Or.inl (Or.inr ⟨rv, rfl⟩)
  | beginCheck rv | commitVersion rv old =>
    refine Or.inr ?_
    simp only [Active.step]
    split_ifs <;> exact ⟨_, rfl⟩
  | _ => exact Or.inr ⟨_, rfl⟩

/-- A transaction left alone leaves its loop in `rank` steps, where these fit. -/
theorem solo_returns {t n : ℕ} (h : Inv c) (hn : rank c.shared (c.thread t) ≤ n)
    (hok : StepsMeet sys (onThread Fits) c (List.replicate (n + 1) (t, .resume))) :
    ∃ k ≤ n, ∃ c', run sys c (List.replicate k (t, .resume)) = some c'
      ∧ (c'.thread t).Returned := by
  induction n generalizing c with
  | zero =>
    rcases step_progress t c.shared (c.thread t) with hret | ⟨⟨s', pc'⟩, hstep⟩
    · exact ⟨0, le_rfl, c, rfl, hret⟩
    · have hlt := rank_lt h.bounds.counts (h.bounds.locals t) hok.1 hstep
      omega
  | succ n ih =>
    rcases step_progress t c.shared (c.thread t) with hret | ⟨⟨s', pc'⟩, hstep⟩
    · exact ⟨0, Nat.zero_le _, c, rfl, hret⟩
    · have hlt := rank_lt h.bounds.counts (h.bounds.locals t) hok.1 hstep
      have hsys : sys c (t, .resume) = some ⟨s', Function.update c.thread t pc'⟩ :=
        interleave_eq_some.mpr ⟨pc', hstep, rfl⟩
      have hrank : rank s' (Function.update c.thread t pc' t) ≤ n := by
        rw [Function.update_self]
        omega
      obtain ⟨k, hk, c', hrun, hret⟩ := ih (h.step hok.1 hsys) hrank (hok.2 _ hsys)
      exact ⟨k + 1, by omega, c', run_cons_eq_some.mpr ⟨_, hsys, hrun⟩, hret⟩

end Run

/-- **The counts of the active versions.**  In every run of `txn_begin` and
`txn_commit` calls whose steps all fit: whenever no call is in progress, `active_`
maps each version to the number of transactions running at it; and from every
state reached, a call that is left alone, and whose steps fit, returns. -/
theorem active_counts_of_fits (es : List (ℕ × Cmd)) (c : Conf Shared Pc)
    (hok : StepsMeet sys (onThread Fits) init es) (hrun : run sys init es = some c) :
    (Quiescent c → CountsMatch c)
      ∧ ∀ t, StepsMeet sys (onThread Fits) c (List.replicate 5 (t, .resume)) →
          ∃ k ≤ 4, ∃ c', run sys c (List.replicate k (t, .resume)) = some c'
            ∧ (c'.thread t).Returned := by
  have hinv := inv_run init_inv hok hrun
  exact ⟨hinv.countsMatch, fun t hsolo => solo_returns hinv (rank_le_four _ _) hsolo⟩

/-- Two transactions begin at version 1 and the first one commits. -/
def twoAtOneRun : List (ℕ × Cmd) :=
  (0, Cmd.begin) :: List.replicate 3 (0, Cmd.resume)
    ++ (1, Cmd.begin) :: List.replicate 4 (1, Cmd.resume)
    ++ (0, Cmd.commit) :: List.replicate 2 (0, Cmd.resume)

/-- Two transactions at version 1, one of which commits. -/
theorem active_counts_two_at_one :
    ∃ c, StepsMeet sys (onThread Fits) init twoAtOneRun ∧ run sys init twoAtOneRun = some c
      ∧ c.shared.active = [(1, 1)] ∧ (inUse c 1).encard = 1
      ∧ ∃ k ≤ 4, ∃ c', run sys c (List.replicate k (1, .resume)) = some c'
          ∧ (c'.thread 1).Returned := by
  have hok : StepsMeet sys (onThread Fits) init twoAtOneRun := by decide
  have h : (run sys init twoAtOneRun).map (fun c => (c.shared.active, c.thread 0, c.thread 1)) =
      some ([(1, 1)], .idle, .running 1) := by decide
  obtain ⟨c, hc, hf⟩ := Option.map_eq_some_iff.mp h
  simp only [Prod.mk.injEq] at hf
  obtain ⟨hact, h0, h1⟩ := hf
  -- the threads that took no step are as they were
  have hidle : ∀ t, t ≠ 0 → t ≠ 1 → c.thread t = .idle := by
    intro t ht0 ht1
    have hlt : ∀ e ∈ twoAtOneRun, e.1 < 2 := by decide
    exact run_thread_eq (fun e he => by have := hlt e he; omega) hc
  have hq : Quiescent c := by
    intro t
    by_cases ht0 : t = 0
    · exact Or.inl (ht0 ▸ h0)
    · by_cases ht1 : t = 1
      · exact Or.inr ⟨1, ht1 ▸ h1⟩
      · exact Or.inl (hidle t ht0 ht1)
  obtain ⟨hcounts, hsolo⟩ := active_counts_of_fits twoAtOneRun c hok hc
  have hentry := ((hcounts hq).entry_iff 1 1).mp (by rw [hact]; exact List.mem_singleton.mpr rfl)
  refine ⟨c, hok, hc, hact, by exact_mod_cast hentry.2, hsolo 1 ?_⟩
  refine ⟨?_, fun c' hc' => ?_⟩
  · simp [onThread, h1, Fits]
  · simp [interleave, h1, step] at hc'

/-- Three transactions begin at version 1 and the first one commits. -/
def threeAtOneRun : List (ℕ × Cmd) :=
  (0, Cmd.begin) :: List.replicate 3 (0, Cmd.resume)
    ++ (1, Cmd.begin) :: List.replicate 4 (1, Cmd.resume)
    ++ (2, Cmd.begin) :: List.replicate 4 (2, Cmd.resume)
    ++ (0, Cmd.commit) :: List.replicate 5 (0, Cmd.resume)

/-- `txn_commit` expects 2, finds 3 and stores 1; its next call finds that 1 and takes
the transaction for the last one.  The entry is gone while two transactions still
run at version 1. -/
theorem three_at_one_lose_their_entry :
    ∃ c, run sys init threeAtOneRun = some c ∧ Quiescent c
      ∧ c.thread 1 = .running 1 ∧ c.thread 2 = .running 1 ∧ c.shared.active = []
      ∧ ¬ CountsMatch c := by
  have h : (run sys init threeAtOneRun).map
      (fun c => (c.shared.active, c.thread 0, c.thread 1, c.thread 2)) =
      some ([], .idle, .running 1, .running 1) := by decide
  obtain ⟨c, hc, hf⟩ := Option.map_eq_some_iff.mp h
  simp only [Prod.mk.injEq] at hf
  obtain ⟨hact, h0, h1, h2⟩ := hf
  have hidle : ∀ t, t ≠ 0 → t ≠ 1 → t ≠ 2 → c.thread t = .idle := by
    intro t ht0 ht1 ht2
    have hlt : ∀ e ∈ threeAtOneRun, e.1 < 3 := by decide
    exact run_thread_eq (fun e he => by have := hlt e he; omega) hc
  refine ⟨c, hc, fun t => ?_, h1, h2, hact, fun hm => ?_⟩
  · by_cases ht0 : t = 0
    · exact Or.inl (ht0 ▸ h0)
    · by_cases ht1 : t = 1
      · exact Or.inr ⟨1, ht1 ▸ h1⟩
      · by_cases ht2 : t = 2
        · exact Or.inr ⟨1, ht2 ▸ h2⟩
        · exact Or.inl (hidle t ht0 ht1 ht2)
  · -- an empty skiplist has the least key 0, at which nobody runs
    have hleast := (hm.min_key 1 1 h1).1
    rw [hact] at hleast
    obtain ⟨u, hu⟩ := hleast
    by_cases hu0 : u = 0
    · subst hu0
      rw [h0] at hu
      cases hu
    · by_cases hu1 : u = 1
      · subst hu1
        rw [h1] at hu
        cases hu
      · by_cases hu2 : u = 2
        · subst hu2
          rw [h2] at hu
          cases hu
        · rw [hidle u hu0 hu1 hu2] at hu
          cases hu

end Active
