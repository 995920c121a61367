/-
# The steps of the hash table

Every step keeps the invariant, leaves the thread with what it has to know where it stands
next, and leaves alone what the other threads rely on.  It leaves the map alone too, unless
it is the `SYNC_CAS` of `hti_cas` on a value that succeeds.

* `StepOk` — what a step does;
* `resume_ok` — one case per place where a thread can stand;
* `relyGuarantee` — the threads together.
-/
import Ssr.HashtableHistory
import Ssr.HashtableMap

open Interleaving Map Migration Hashtable

namespace HashtableSteps

variable {kt : KeyType} {t : ℕ} {s s' : Shared} {pc pc' : Pc} {h h' : Ht}

/-- A successful `SYNC_CAS` of `hti_cas`: the key of the call goes from the value that was
found to the new one. -/
structure Wrote (kt : KeyType) (a : Args) (v : ℕ) (h h' : Ht) : Prop where
  opened : ¬ IsTagged v
  before : ∀ k, kt.Same a.key k → h.absMap kt k = meaning v
  after : ∀ k, kt.Same a.key k → h'.absMap kt k = meaning a.word
  others : ∀ k, ¬ kt.Same a.key k → h'.absMap kt k = h.absMap kt k

/-- **What a step of thread `t` does.** -/
structure StepOk (kt : KeyType) (t : ℕ) (s : Shared) (pc : Pc) (r : Shared × Pc) : Prop where
  inv : r.1.Inv kt
  loc : Loc kt t r.1 r.2
  rely : ∀ u, u ≠ t → Rely kt u s r.1
  map : (∀ k, r.1.ht.absMap kt k = s.ht.absMap kt k)
    ∨ ∃ a i e v, pc = .swap a i e v ∧ s.ht.val i e = v ∧ s.ht.hti ≤ i
      ∧ r.2.answer = some (result v) ∧ Wrote kt a v s.ht r.1.ht

/-- No step is no matter to anybody. -/
theorem Rely.refl (kt : KeyType) (u : ℕ) (s : Shared) : Rely kt u s s :=
  ⟨Grows.refl kt s.ht, fun _ => rfl, fun _ _ => Iff.rfl⟩

/-- A step that reads. -/
theorem StepOk.stay (hi : s.Inv kt) (hl : Loc kt t s pc) (hk : Knows kt s.ht pc')
    (hp : pc'.pend = pc.pend) (hw : pc'.wins = pc.wins) : StepOk kt t s pc (s, pc') := by
  refine ⟨hi, ⟨hk, fun i => ?_, fun i e => ?_⟩, fun u _ => Rely.refl kt u s, Or.inl fun _ => rfl⟩
  · rw [hp]
    exact hl.owed i
  · rw [hw]
    exact hl.won i e

/-- A store that shuts no entry and gives none away, and leaves the history alone. -/
theorem StepOk.tables (hi : s.Inv kt) (hl : Loc kt t s pc) (hchain : Hashtable.Inv kt h' h'.hti)
    (hg : Grows kt s.ht h') (hback : TagsBack s.ht h')
    (hstill : ∀ i e, s.ht.hti ≤ i → Still kt s.ht h' i e) (hled : Ledger h' s.trues s.owed)
    (hmap : (∀ k, h'.absMap kt k = s.ht.absMap kt k)
      ∨ ∃ a i e v, pc = .swap a i e v ∧ s.ht.val i e = v ∧ s.ht.hti ≤ i
        ∧ pc'.answer = some (result v) ∧ Wrote kt a v s.ht h')
    (hk : Knows kt h' pc') (hp : pc'.pend = pc.pend) (hw : pc'.wins = pc.wins) :
    StepOk kt t s pc ({ s with ht := h' }, pc') := by
  refine ⟨⟨hchain, hi.history.tables hi.chain hg hback hstill, hled⟩, ⟨hk, fun i => ?_, fun i e => ?_⟩,
    fun u _ => ⟨hg, fun _ => rfl, fun _ _ => Iff.rfl⟩, hmap⟩
  · rw [hp]
    exact hl.owed i
  · rw [hw]
    exact hl.won i e

/-- A store into a counter. -/
theorem StepOk.counter (hi : s.Inv kt) (hl : Loc kt t s pc) (hent : SameEntries s.ht h')
    (hhti : h'.hti = s.ht.hti) (hled : Ledger h' s.trues s.owed)
    (hk : Knows kt h' pc') (hp : pc'.pend = pc.pend) (hw : pc'.wins = pc.wins) :
    StepOk kt t s pc ({ s with ht := h' }, pc') := by
  obtain ⟨hchain, hkept⟩ := hi.chain.sameEntries hent
  rw [← hhti] at hchain
  refine StepOk.tables hi hl hchain (Grows.sameEntries hent hhti.ge) (TagsBack.sameEntries hent)
    (fun i e _ => Still.sameEntries hent i e) hled (Or.inl fun k => ?_) hk hp hw
  unfold Ht.absMap
  rw [hhti]
  exact hkept k

/-! ## Where a thread goes -/

section Next

variable {o : Op} {f : Finder} {c : Copy} {g : Help} {who : Option Args} {i j e : ℕ}

/-- A copy may still have an entry to be counted. -/
theorem pend_copy {pc : Pc} {c : Copy} (hc : pc.copy = some c) :
    pc.pend = fun i => if c.i = i then c.src.pend else 0 := by
  funext i
  unfold Pc.pend
  split
  · cases hc
  · cases hc
  · rw [hc]

/-- A search goes on. -/
theorem Finder.search_knows {rest : List ℕ} (hf : f.At kt h j)
    (hs : Finding kt h (f.key kt) j rest) : Knows kt h (f.search j rest) := by
  cases rest with
  | cons e rest => exact ⟨hf, hs⟩
  | nil =>
    have hnone := hs.none
    cases f with
    | op o =>
      cases o with
      | set a => exact ⟨hf, hnone⟩
      | get key iter => exact fun _ => ⟨hf, hnone⟩
    | copy c u w =>
      obtain ⟨hc, hw, -⟩ := hf
      refine ⟨hc.toCopyTo, hc.key_ne, ?_⟩
      rw [← hw]
      exact hnone

/-- The search of an operation owes nothing. -/
theorem search_op_pend (o : Op) (j : ℕ) (rest : List ℕ) :
    (Finder.search (.op o) j rest).pend = (fun _ => 0)
      ∧ (Finder.search (.op o) j rest).wins = none := by
  cases rest <;> cases o <;> exact ⟨rfl, rfl⟩

/-- That of a copy owes what the copy does. -/
theorem search_copy_pend (c : Copy) (u w j : ℕ) (rest : List ℕ) :
    (Finder.search (.copy c u w) j rest).pend = (fun i => if c.i = i then c.src.pend else 0)
      ∧ (Finder.search (.copy c u w) j rest).wins = none := by
  cases rest <;> exact ⟨rfl, rfl⟩

/-- An operation begins in a table. -/
theorem Op.start_knows (ho : OpAt kt h o i) : Knows kt h (o.start kt h i) :=
  Finder.search_knows (f := .op o) ho (Finding.start kt h o.key i)

/-- A helper returns to its call. -/
theorem helped_knows (hw : WhoAt kt h who i) (hn : i + 1 < h.len) {finished : Bool}
    (hf : finished = true → AllDead h i) : Knows kt h (helped kt h who i finished) := by
  cases who with
  | none =>
    cases finished with
    | true => exact hn
    | false => exact ⟨hw, hn⟩
  | some a =>
    cases finished with
    | true => exact ⟨hw, hn, hf rfl⟩
    | false => exact Op.start_knows hw

/-- It owes nothing. -/
theorem helped_pend (kt : KeyType) (h : Ht) (who : Option Args) (i : ℕ) (finished : Bool) :
    (helped kt h who i finished).pend = (fun _ => 0) ∧ (helped kt h who i finished).wins = none := by
  cases who <;> cases finished
  · exact ⟨rfl, rfl⟩
  · exact ⟨rfl, rfl⟩
  · exact search_op_pend _ _ _
  · exact ⟨rfl, rfl⟩

/-- A helper goes on to the next entry. -/
theorem Help.next_knows (hw : WhoAt kt h g.who i) (hn : i + 1 < h.len)
    (he : e + g.left ≤ 2 ^ (h.tables i).scale)
    (hf : g.total = 2 ^ (h.tables i).scale → AllDead h i) : Knows kt h (g.next kt h i e) := by
  unfold Help.next
  split
  · split
    · exact helped_knows hw hn fun h => hf (of_decide_eq_true h)
    · exact ⟨hw, hn⟩
  · rename_i n hleft
    rw [hleft] at he
    refine ⟨⟨hn, ?_, Or.inl rfl, hw, ?_, hf⟩, Nat.lt_succ_self i, hn, fun m hm hlt => ?_⟩
    · show e < 2 ^ (h.tables i).scale
      omega
    · show e + 1 + n ≤ 2 ^ (h.tables i).scale
      omega
    · have hm' : i < m := hm
      omega

/-- It owes the entries of its stride. -/
theorem Help.next_pend (kt : KeyType) (h : Ht) (g : Help) (i e : ℕ) :
    (g.next kt h i e).pend = (fun j => if i = j then g.num else 0)
      ∧ (g.next kt h i e).wins = none := by
  unfold Help.next
  split
  · split
    · rename_i hz
      have hp := helped_pend kt h g.who i (g.total = 2 ^ (h.tables i).scale)
      refine ⟨hp.1.trans ?_, hp.2⟩
      funext j
      rw [hz, ite_self]
    · exact ⟨rfl, rfl⟩
  · exact ⟨rfl, rfl⟩

/-- `hti_copy_entry` returns: the entry is dead. -/
theorem Copy.next_knows (hc : CopyAt kt h c) (hd : Dead (h.val c.i c.e)) (did : Bool) :
    Knows kt h (c.next kt h did) := by
  have hlt : c.i < h.len := Nat.lt_of_succ_lt hc.next
  have hs := hc.src
  unfold Copy.next
  cases hsrc : c.src with
  | op o =>
    rw [hsrc] at hs
    obtain ⟨ho, hf, hkey⟩ := hs
    have hnext : OpAt kt h o (c.i + 1) := by
      refine ⟨ho.ok, hc.next, fun hit m hm hlt' => ?_⟩
      by_cases hmi : m = c.i
      · rw [hmi, Ht.cell_of_key hf hkey]
        exact cellOf_passed_iff.mpr hd
      · exact ho.passed hit m hm (by omega)
    cases did with
    | true => exact hnext
    | false => exact hnext
  | help g =>
    rw [hsrc] at hs
    obtain ⟨hw, he, hf⟩ := hs
    exact Help.next_knows hw hc.next he hf

/-- A copy that is done owes its entry to the stride. -/
theorem Copy.next_pend (kt : KeyType) (h : Ht) (c : Copy) (did : Bool) :
    (c.next kt h did).pend = (fun j => if c.i = j then c.src.pend + did.toNat else 0)
      ∧ (c.next kt h did).wins = none := by
  unfold Copy.next
  cases c.src with
  | op o =>
    cases did with
    | true => exact ⟨rfl, rfl⟩
    | false =>
      refine ⟨?_, rfl⟩
      funext j
      exact (ite_self _).symm
  | help g => exact Help.next_pend kt h _ c.i (c.e + 1)

/-- A thread that has grown the chain goes on. -/
theorem Grower.next_knows {g : Grower} (ha : g.At kt h j) (hn : j + 1 < h.len) :
    Knows kt h (g.next j) := by
  cases g with
  | set a =>
    obtain ⟨ho, hf⟩ := ha
    refine ⟨ho.ok, hn, fun hit m hm hlt => ?_⟩
    by_cases hmj : m = j
    · rw [hmj, show h.cell kt (Op.set a).key j = .full from Ht.cell_of_none hf]
      trivial
    · exact ho.passed hit m hm (by omega)
  | copy c =>
    obtain ⟨hc, hne, hf⟩ := ha
    refine ⟨hc.toCopyAt, hc.lt.trans (Nat.lt_succ_self j), hn, fun m hm hlt => ?_⟩
    by_cases hmj : m = j
    · refine ⟨hne, ?_⟩
      rw [hmj, Ht.cell_of_none hf]
      trivial
    · exact hc.skips m hm (by omega)

end Next

/-! ## The tables -/

section Tables

variable {a : Args} {o : Op} {i j e v x w scale : ℕ} {g : Help} {gr : Grower}
  {who : Option Args}

/-- `ht->hti` moves on, past a table that is dead. -/
theorem unlink_ok (hi : s.Inv kt) (hl : Loc kt t s (.unlink a i)) :
    StepOk kt t s (.unlink a i)
      (if s.ht.hti = i then { s with ht := { s.ht with hti := i + 1 } } else s,
        (Op.set a).start kt s.ht i) := by
  obtain ⟨ho, hn, hd⟩ : OpAt kt s.ht (.set a) i ∧ i + 1 < s.ht.len ∧ AllDead s.ht i := hl.knows
  obtain ⟨hp, hw⟩ := search_op_pend (.set a) i ((s.ht.tables i).probes (kt.hash a.key))
  by_cases hh : s.ht.hti = i
  · rw [if_pos hh]
    subst hh
    obtain ⟨hretired, hval⟩ := hi.chain.retire hn hd
    have hent : SameEntries s.ht { s.ht with hti := s.ht.hti + 1 } :=
      ⟨rfl, fun _ => rfl, fun _ => rfl, fun _ => rfl⟩
    obtain ⟨hg, hstill⟩ := grows_retire kt s.ht
    exact StepOk.tables hi hl (hretired.sameEntries hent).1 hg (TagsBack.sameEntries hent)
      (fun j f _ => hstill j f) ⟨hi.ledger.counted, hi.ledger.owing, hi.ledger.scan⟩
      (Or.inl hval) ((Op.start_knows ho).stable hg) hp hw
  · rw [if_neg hh]
    exact StepOk.stay hi hl (Op.start_knows ho) hp hw

/-- The place of the copy is not in the ledger. -/
theorem setCopyScan_ledger {trues : ℕ → ℕ → ℕ} {owed : List (ℕ × ℕ)}
    (hled : Ledger h trues owed) (hx : entriesPerCopyChunk ∣ x) :
    Ledger (h.setCopyScan i x) trues owed := by
  have hent := setCopyScan_entries h i x
  refine ⟨fun j hj => ?_, hled.owing, fun j hj => ?_⟩
  · rw [hent.scale]
    refine (hled.counted j hj).trans ?_
    congr 1
    unfold Ht.setCopyScan
    by_cases hji : j = i
    · subst hji
      rw [Ht.setTable_self]
    · rw [Ht.setTable_of_ne _ hji]
  · have hscan := hled.scan j hj
    unfold Ht.setCopyScan
    by_cases hji : j = i
    · subst hji
      rw [Ht.setTable_self]
      exact hx
    · rw [Ht.setTable_of_ne _ hji]
      exact hscan

/-- `hti_help_copy` reserves a chunk. -/
theorem helpStore_ok {total : ℕ} (hi : s.Inv kt) (hl : Loc kt t s (.helpStore who i total x)) :
    StepOk kt t s (.helpStore who i total x)
      ({ s with ht := s.ht.setCopyScan i (x + entriesPerCopyChunk) },
        (⟨who, total, entriesPerCopyChunk, 0⟩ : Help).next kt s.ht i
          (x % 2 ^ (s.ht.tables i).scale)) := by
  obtain ⟨hw, hn, hd, hx⟩ : WhoAt kt s.ht who i ∧ i + 1 < s.ht.len
    ∧ (total = 2 ^ (s.ht.tables i).scale → AllDead s.ht i) ∧ entriesPerCopyChunk ∣ x := hl.knows
  have hent := setCopyScan_entries s.ht i (x + entriesPerCopyChunk)
  have hnext := Help.next_pend kt s.ht ⟨who, total, entriesPerCopyChunk, 0⟩ i
    (x % 2 ^ (s.ht.tables i).scale)
  have hknows : Knows kt s.ht ((⟨who, total, entriesPerCopyChunk, 0⟩ : Help).next kt s.ht i
      (x % 2 ^ (s.ht.tables i).scale)) :=
    Help.next_knows hw hn (chunk_le (hi.chain.scale i (Nat.lt_of_succ_lt hn)) hx) hd
  refine StepOk.counter hi hl hent rfl
    (setCopyScan_ledger hi.ledger (dvd_add hx (dvd_refl _)))
    (hknows.stable (Grows.sameEntries hent le_rfl)) (hnext.1.trans ?_) hnext.2
  funext j
  exact ite_self _

/-- What is paid is no longer owed. -/
theorem count_filter_self (owed : List (ℕ × ℕ)) (x : ℕ × ℕ) :
    (owed.filter (· ≠ x)).count x = 0 :=
  List.count_eq_zero.mpr fun hx => of_decide_eq_true (List.mem_filter.mp hx).2 rfl

/-- The rest is. -/
theorem count_filter_of_ne (owed : List (ℕ × ℕ)) {x y : ℕ × ℕ} (h : y ≠ x) :
    (owed.filter (· ≠ x)).count y = owed.count y :=
  List.count_filter (decide_eq_true h)

/-- What the thread owes is added to the counter of the table. -/
theorem settle_ok {m : ℕ} (hi : s.Inv kt) (hl : Loc kt t s pc)
    (hpend : pc.pend = fun j => if i = j then m else 0)
    (hk : Knows kt (s.ht.addCopied i m) pc') (hp : pc'.pend = fun _ => 0)
    (hw : pc'.wins = pc.wins) :
    StepOk kt t s pc ({ s.settle t i with ht := s.ht.addCopied i m }, pc') := by
  have hent := addCopied_entries s.ht i m
  have hg : Grows kt s.ht (s.ht.addCopied i m) := Grows.sameEntries hent le_rfl
  have hm : s.owed.count (t, i) = m := by
    rw [hl.owed i, hpend]
    exact if_pos rfl
  obtain ⟨hchain, hkept⟩ := hi.chain.sameEntries hent
  refine ⟨⟨hchain, hi.history.tables hi.chain hg (TagsBack.sameEntries hent) fun j f _ =>
      Still.sameEntries hent j f, hi.ledger.settle hm⟩, ⟨hk, fun j => ?_, fun j f => ?_⟩,
    fun u hu => ⟨hg, fun j => count_filter_of_ne s.owed fun h => hu (congrArg Prod.fst h),
      fun _ _ => Iff.rfl⟩, Or.inl hkept⟩
  · show (s.owed.filter (· ≠ (t, i))).count (t, j) = pc'.pend j
    rw [hp]
    by_cases hj : j = i
    · rw [hj]
      exact count_filter_self s.owed (t, i)
    · rw [count_filter_of_ne s.owed fun h => hj (congrArg Prod.snd h), hl.owed j, hpend]
      exact if_neg (Ne.symm hj)
  · rw [hw]
    exact hl.won j f

/-- `hti_help_copy` counts the entries that it has copied. -/
theorem helpAdd_ok (hi : s.Inv kt) (hl : Loc kt t s (.helpAdd g i)) :
    StepOk kt t s (.helpAdd g i)
      ({ s.settle t i with ht := s.ht.addCopied i g.num },
        helped kt (s.ht.addCopied i g.num) g.who i
          (((s.ht.addCopied i g.num).tables i).numEntriesCopied
            = 2 ^ ((s.ht.addCopied i g.num).tables i).scale)) := by
  obtain ⟨hw, hn⟩ : WhoAt kt s.ht g.who i ∧ i + 1 < s.ht.len := hl.knows
  have hg : Grows kt s.ht (s.ht.addCopied i g.num) :=
    Grows.sameEntries (addCopied_entries s.ht i g.num) le_rfl
  have hpend : (Pc.helpAdd g i).pend = fun j => if i = j then g.num else 0 := rfl
  have hnext := helped_pend kt (s.ht.addCopied i g.num) g.who i
    (((s.ht.addCopied i g.num).tables i).numEntriesCopied
      = 2 ^ ((s.ht.addCopied i g.num).tables i).scale)
  -- the invariant of the new state says what a full counter means
  have hdone : ∀ pc'', Knows kt (s.ht.addCopied i g.num) pc'' → pc''.pend = (fun _ => 0) →
      pc''.wins = none →
      StepOk kt t s (.helpAdd g i) ({ s.settle t i with ht := s.ht.addCopied i g.num }, pc'') :=
    fun pc'' hk hp hw' => settle_ok hi hl hpend hk hp hw'
  have hinv := (hdone (.returned 0) trivial rfl rfl).inv
  refine hdone _ (helped_knows (hw.stable hg) (hn.trans_le hg.len) fun hf => ?_) hnext.1 hnext.2
  exact hinv.allDead (Nat.lt_of_succ_lt hn) (of_decide_eq_true hf)

/-- `hti_cas` and `hti_get` count the entry that they have copied. -/
theorem addCopied_ok (hi : s.Inv kt) (hl : Loc kt t s (.addCopied o i)) :
    StepOk kt t s (.addCopied o i)
      ({ s.settle t i with ht := s.ht.addCopied i 1 }, .nextTable o i) :=
  settle_ok hi hl rfl
    (OpAt.stable (Grows.sameEntries (addCopied_entries s.ht i 1) le_rfl) hl.knows) rfl rfl

/-- A new table is put behind the last one. -/
theorem growCas_ok (hi : s.Inv kt) (hl : Loc kt t s (.growCas gr j scale)) :
    StepOk kt t s (.growCas gr j scale)
      (if j + 1 < s.ht.len then s else { s with ht := s.ht.append (htiAlloc scale) },
        gr.next j) := by
  obtain ⟨ha, hs⟩ : gr.At kt s.ht j ∧ minScale ≤ scale := hl.knows
  have hp : (gr.next j).pend = (Pc.growCas gr j scale).pend ∧ (gr.next j).wins = none := by
    cases gr <;> exact ⟨rfl, rfl⟩
  by_cases hn : j + 1 < s.ht.len
  · rw [if_pos hn]
    exact StepOk.stay hi hl (Grower.next_knows ha hn) hp.1 hp.2
  · rw [if_neg hn]
    obtain ⟨hg, hstill⟩ := grows_append kt s.ht scale
    obtain ⟨hchain, hkept⟩ := hi.chain.append hs
    have hn' : j + 1 < (s.ht.append (htiAlloc scale)).len := by
      show j + 1 < s.ht.len + 1
      have := ha.lt
      omega
    exact StepOk.tables hi hl hchain hg (TagsBack.append scale) (fun i e _ => hstill i e)
      (hi.ledger.append hi.history scale) (Or.inl hkept) (Grower.next_knows (ha.stable hg) hn')
      hp.1 hp.2

end Tables

/-! ## hti_cas -/

section Cas

variable {a : Args} {i e v w : ℕ}

/-- Where a lookup stops at an empty entry. -/
theorem Finding.empty {k : ℕ} {rest : List ℕ} (hf : Finding kt h k i (e :: rest))
    (hkey : h.key i e = doesNotExist) : h.find kt k i = some e :=
  hf.find (Hti.stopsAt_iff.mpr (Or.inl hkey))

/-- A store into a key changes no counter. -/
theorem setKey_counters (h : Ht) (i e w : ℕ) : SameCounters h (h.setKey i e w) :=
  SameCounters.setTable rfl rfl rfl

/-- A key comes into an empty entry where its lookup stops. -/
theorem installed_ok (hkt : kt.Lawful) (hi : s.Inv kt) (hl : Loc kt t s pc) (hlt : i < s.ht.len)
    (hkey : s.ht.key i e = doesNotExist) (hw : kt.Good w)
    (hf : s.ht.find kt (kt.keyOf w) i = some e)
    (hbelow : ∀ m, s.ht.hti ≤ m → m < i → s.ht.cell kt (kt.keyOf w) m = .full
      ∨ (s.ht.cell kt (kt.keyOf w) m).Tagged)
    (hk : Grows kt s.ht (s.ht.setKey i e w) → EntryOf kt (s.ht.setKey i e w) (kt.keyOf w) i e →
      Knows kt (s.ht.setKey i e w) pc') (hp : pc'.pend = pc.pend) (hwins : pc'.wins = pc.wins) :
    StepOk kt t s pc ({ s with ht := s.ht.setKey i e w }, pc') := by
  obtain ⟨hchain, hkept⟩ := hi.chain.install hkt hlt hkey hw hf hbelow
  obtain ⟨hg, hstill⟩ := grows_install hkt hi.chain hlt hkey hw hf
  have hself : (s.ht.setKey i e w).key i e = w := Ht.setKey_key_self w
  have hne : (s.ht.setKey i e w).key i e ≠ doesNotExist := by
    rw [hself]
    exact hw.1
  have hfound := hchain.found i e hlt hne
  rw [hself] at hfound
  exact StepOk.tables hi hl hchain hg (fun _ _ hj _ => ⟨hj, Ht.setKey_val w⟩) hstill
    (hi.ledger.sameCounters (setKey_counters s.ht i e w)) (Or.inl hkept) (hk hg ⟨hfound, hne⟩) hp hwins

/-- `hti_cas` makes its new key. -/
theorem install_ok (hkt : kt.Lawful) (hi : s.Inv kt) (hl : Loc kt t s (.install a i e)) :
    StepOk kt t s (.install a i e)
      ({ s with ht := s.ht.cloned },
        .key a i e (kt.newKey s.ht.clones a.key (kt.hash a.key))) := by
  obtain ⟨ho, hf⟩ : OpAt kt s.ht (.set a) i ∧ ∃ rest, Finding kt s.ht a.key i (e :: rest) :=
    hl.knows
  have hent : SameEntries s.ht s.ht.cloned := ⟨rfl, fun _ => rfl, fun _ => rfl, fun _ => rfl⟩
  have hk : Knows kt s.ht (.key a i e (kt.newKey s.ht.clones a.key (kt.hash a.key))) :=
    ⟨ho, hf, KeyType.newKey_good hkt s.ht.clones ho.ok.1.1⟩
  exact StepOk.counter hi hl hent rfl
    (hi.ledger.sameCounters ⟨rfl, fun _ _ => rfl, fun _ _ => rfl, fun _ _ => rfl⟩)
    (hk.stable (Grows.sameEntries hent le_rfl)) rfl rfl

/-- The `SYNC_CAS` of `hti_cas` on a key. -/
theorem key_ok (hkt : kt.Lawful) (hi : s.Inv kt) (hl : Loc kt t s (.key a i e w)) :
    StepOk kt t s (.key a i e w)
      (if s.ht.key i e = doesNotExist then
        ({ s with ht := s.ht.setKey i e w }, .keyCount a i e)
      else (s, (Op.set a).start kt s.ht i)) := by
  obtain ⟨ho, ⟨rest, hf⟩, hgood, hsame⟩ : OpAt kt s.ht (.set a) i
    ∧ (∃ rest, Finding kt s.ht a.key i (e :: rest)) ∧ kt.Good w ∧ kt.Same (kt.keyOf w) a.key :=
    hl.knows
  by_cases hkey : s.ht.key i e = doesNotExist
  · rw [if_pos hkey]
    have hfind := Finding.empty hf hkey
    refine installed_ok hkt hi hl ho.lt hkey hgood ((Ht.find_same hkt hsame).trans hfind) ?_ ?_ rfl
      rfl
    · intro m hm hlt
      rw [Ht.cell_same hkt hsame]
      exact (ho.passed rfl m hm hlt).full_or_tagged
    · intro hg hentry
      exact ⟨ho.stable hg, (Ht.find_same hkt (hsame.symm hkt)).trans hentry.1, hentry.2⟩
  · rw [if_neg hkey]
    obtain ⟨hp, hw⟩ := search_op_pend (.set a) i ((s.ht.tables i).probes (kt.hash a.key))
    exact StepOk.stay hi hl (Op.start_knows ho) hp hw

/-- The key count is not in the ledger. -/
theorem addKeyCount_ledger {trues : ℕ → ℕ → ℕ} {owed : List (ℕ × ℕ)}
    (hled : Ledger h trues owed) (i : ℕ) : Ledger (h.addKeyCount i) trues owed :=
  hled.sameCounters (SameCounters.setTable rfl rfl rfl)

/-- Nor is the count. -/
theorem addCount_ledger {trues : ℕ → ℕ → ℕ} {owed : List (ℕ × ℕ)}
    (hled : Ledger h trues owed) (i n : ℕ) : Ledger (h.addCount i n) trues owed :=
  hled.sameCounters (SameCounters.setTable rfl rfl rfl)

/-- A store of a value changes no counter. -/
theorem setVal_counters_same (h : Ht) (i e v : ℕ) : SameCounters h (h.setVal i e v) :=
  SameCounters.setTable rfl rfl rfl

/-- The word that a call stores. -/
theorem Args.word_ok (ho : (Op.set a).Ok) : a.word = tombstone ∨ Legal a.word := by
  unfold Args.word
  rcases ho.2 with h0 | hl
  · rw [if_pos h0]
    exact Or.inl rfl
  · rw [if_neg hl.1]
    exact Or.inr hl

/-- A successful `SYNC_CAS` of `hti_cas` on a value: what it does to the tables. -/
structure Swapped (kt : KeyType) (s : Shared) (a : Args) (i e v : ℕ) : Prop where
  base : s.ht.hti ≤ i
  entry : e < 2 ^ (s.ht.tables i).scale
  chain : Hashtable.Inv kt (s.ht.setVal i e a.word) s.ht.hti
  grows : Grows kt s.ht (s.ht.setVal i e a.word)
  still : ∀ j f, s.ht.hti ≤ j → Still kt s.ht (s.ht.setVal i e a.word) j f
  wrote : Wrote kt a v s.ht (s.ht.setVal i e a.word)

/-- **The CAS on the value** of an entry. -/
theorem swapped (hkt : kt.Lawful) (hi : s.Inv kt) (hk : Knows kt s.ht (.swap a i e v))
    (hv : s.ht.val i e = v) : Swapped kt s a i e v := by
  obtain ⟨ho, ⟨hf, hkey⟩, ht, -⟩ : OpAt kt s.ht (.set a) i ∧ EntryOf kt s.ht a.key i e
    ∧ ¬ IsTagged v ∧ ¬ a.Keeps v := hk
  rw [← hv] at ht
  have he := hi.chain.find_lt ho.lt hf
  have hsame := (hi.chain.find_iff hkt ho.lt hkey).mp hf
  have hword := Args.word_ok ho.ok
  have hpass : ∀ m, s.ht.hti ≤ m → m < i →
      (s.ht.cell kt (kt.keyOf (s.ht.key i e)) m).Passed := by
    intro m hm hlt
    rw [Ht.cell_same hkt hsame]
    exact ho.passed rfl m hm hlt
  obtain ⟨hchain, hhere, hothers⟩ := hi.chain.write hkt ho.lt he hkey ht hword hpass
  obtain ⟨hg, hstill⟩ := grows_write hkt hi.chain ho.lt hkey ht hword hpass
  refine ⟨hi.chain.base_le he fun hd => ht hd.isTagged, he, hchain, hg, hstill,
    hv ▸ ht, fun k hk => ?_, fun k hk => ?_, fun k hk => ?_⟩
  · rw [← hv]
    exact (hhere k (hsame.trans hkt hk)).1
  · exact (hhere k (hsame.trans hkt hk)).2
  · exact hothers k fun hs => hk ((hsame.symm hkt).trans hkt hs)

/-- **The `SYNC_CAS` of `hti_cas` on a value.** -/
theorem swap_ok (hkt : kt.Lawful) (hi : s.Inv kt) (hl : Loc kt t s (.swap a i e v)) :
    StepOk kt t s (.swap a i e v)
      (if s.ht.val i e = v then
        (s.setVal i e a.word,
          if Existed v ↔ a.new ≠ doesNotExist then .returned (result v) else .count a i v)
      else (s, (Op.set a).start kt s.ht i)) := by
  obtain ⟨ho, -⟩ : OpAt kt s.ht (.set a) i ∧ EntryOf kt s.ht a.key i e
    ∧ ¬ IsTagged v ∧ ¬ a.Keeps v := hl.knows
  by_cases hv : s.ht.val i e = v
  · rw [if_pos hv]
    have hs := swapped hkt hi hl.knows hv
    have huntag : ¬ IsTagged a.word := by
      rcases Args.word_ok ho.ok with h | h
      · rw [h]
        decide
      · exact h.2.1
    obtain ⟨pc', hpc'⟩ : ∃ pc', pc' = if Existed v ↔ a.new ≠ doesNotExist then
      Pc.returned (result v) else .count a i v := ⟨_, rfl⟩
    have hshape : pc'.pend = (fun _ => 0) ∧ pc'.wins = none ∧ pc'.answer = some (result v)
        ∧ Knows kt (s.ht.setVal i e a.word) pc' := by
      rw [hpc']
      split
      · exact ⟨rfl, rfl, rfl, trivial⟩
      · exact ⟨rfl, rfl, rfl, trivial⟩
    rw [← hpc']
    exact StepOk.tables hi hl hs.chain hs.grows (TagsBack.setVal huntag) hs.still
      (hi.ledger.sameCounters (setVal_counters_same s.ht i e a.word))
      (Or.inr ⟨a, i, e, v, rfl, hv, hs.base, hshape.2.2.1, hs.wrote⟩) hshape.2.2.2 hshape.1
      hshape.2.1
  · rw [if_neg hv]
    obtain ⟨hp, hw⟩ := search_op_pend (.set a) i ((s.ht.tables i).probes (kt.hash a.key))
    exact StepOk.stay hi hl (Op.start_knows ho) hp hw

end Cas

/-! ## hti_copy_entry -/

section CopyEntry

variable {c : Copy} {i j e f u v w : ℕ} {did : Bool}

/-- A thread is owed one more. -/
theorem count_credit (owed : List (ℕ × ℕ)) (t i u j : ℕ) :
    ((t, i) :: owed).count (u, j) = owed.count (u, j) + if u = t ∧ i = j then 1 else 0 := by
  rw [List.count_cons]
  by_cases h : u = t ∧ i = j
  · obtain ⟨rfl, rfl⟩ := h
    simp
  · rw [if_neg h, if_neg]
    simp only [beq_iff_eq, Prod.mk.injEq]
    exact fun h' => h ⟨h'.1.symm, h'.2⟩

/-- `hti_copy_entry` kills or buries an entry, and returns `TRUE`. -/
theorem kill_ok (hkt : kt.Lawful) (hi : s.Inv kt) (hl : Loc kt t s pc) (hcopy : pc.copy = some c)
    (hwins : pc.wins = none) (hc : CopyAt kt s.ht c)
    (hv : (s.ht.val c.i c.e = doesNotExist ∧ v = copiedValue)
      ∨ (s.ht.val c.i c.e = tombstone ∧ v = tagValue tombstone)) :
    StepOk kt t s pc
      ((s.setVal c.i c.e v).credit t c.i c.e, c.next kt (s.ht.setVal c.i c.e v) true) := by
  have hlt : c.i < s.ht.len := Nat.lt_of_succ_lt hc.next
  have ht : ¬ IsTagged (s.ht.val c.i c.e) := by
    rcases hv with ⟨h, -⟩ | ⟨h, -⟩ <;> rw [h] <;> decide
  have hd : Dead v := by
    rcases hv with ⟨-, rfl⟩ | ⟨-, rfl⟩
    · exact Or.inl rfl
    · exact Or.inr rfl
  have hcases : (s.ht.val c.i c.e = doesNotExist ∧ v = copiedValue)
      ∨ (s.ht.val c.i c.e = tombstone ∧ v = tagValue tombstone)
      ∨ (Legal (s.ht.val c.i c.e) ∧ v = tagValue (s.ht.val c.i c.e)) :=
    hv.imp id Or.inl
  have hbi : s.ht.hti ≤ c.i := hi.chain.base_le hc.entry fun hd => ht hd.isTagged
  obtain ⟨hchain, hkept⟩ := hi.chain.shut hc.entry hc.next hcases
  obtain ⟨hg, hstill⟩ := grows_shut hkt hi.chain hbi hlt hcases
  have hself : (s.ht.setVal c.i c.e v).val c.i c.e = v := Ht.setVal_val_self v
  obtain ⟨hp, hw⟩ := Copy.next_pend kt (s.ht.setVal c.i c.e v) c true
  have hled := (hi.ledger.sameCounters (setVal_counters_same s.ht c.i c.e v)).credit
    (i := c.i) (e := c.e) hlt (by rw [Ht.setVal_scale]; exact hc.entry) t
  refine ⟨⟨hchain, hi.history.kill hg hstill hlt hc.entry ht hd, hled⟩,
    ⟨Copy.next_knows (hc.stable hg) (by rw [hself]; exact hd) true, fun k => ?_, fun k x => ?_⟩,
    fun u hu => ⟨hg, fun k => ?_, fun _ _ => Iff.rfl⟩, Or.inl hkept⟩
  · show ((t, c.i) :: s.owed).count (t, k) = (c.next kt (s.ht.setVal c.i c.e v) true).pend k
    have ho := hl.owed k
    rw [pend_copy hcopy] at ho
    rw [count_credit, hp, ho]
    simp only [true_and, Bool.toNat_true]
    split_ifs <;> omega
  · show s.won k x = some t ↔ (c.next kt (s.ht.setVal c.i c.e v) true).wins = some (k, x)
    rw [hw, ← hwins]
    exact hl.won k x
  · show ((t, c.i) :: s.owed).count (u, k) = s.owed.count (u, k)
    rw [count_credit, if_neg fun h => hu h.1, Nat.add_zero]

/-- A copy returns `FALSE`: its entry is dead already. -/
theorem dead_ok (hi : s.Inv kt) (hl : Loc kt t s pc) (hcopy : pc.copy = some c)
    (hwins : pc.wins = none) (hc : CopyAt kt s.ht c) (hd : Dead (s.ht.val c.i c.e)) :
    StepOk kt t s pc (s, c.next kt s.ht false) := by
  obtain ⟨hp, hw⟩ := Copy.next_pend kt s.ht c false
  exact StepOk.stay hi hl (Copy.next_knows hc hd false) (hp.trans (pend_copy hcopy).symm)
    (hw.trans hwins.symm)

/-- The CAS of `COPIED_VALUE` into an empty entry. -/
theorem copyKill_ok (hkt : kt.Lawful) (hi : s.Inv kt) (hl : Loc kt t s (.copyKill c j)) :
    StepOk kt t s (.copyKill c j)
      (if s.ht.val c.i c.e = doesNotExist then
        ((s.setVal c.i c.e copiedValue).credit t c.i c.e,
          c.next kt (s.ht.setVal c.i c.e copiedValue) true)
      else (s, .copyTag c j)) := by
  have hc : CopyTo kt s.ht c j := hl.knows
  by_cases hv : s.ht.val c.i c.e = doesNotExist
  · rw [if_pos hv]
    exact kill_ok hkt hi hl rfl rfl hc.toCopyAt (Or.inl ⟨hv, rfl⟩)
  · rw [if_neg hv]
    exact StepOk.stay hi hl ⟨hc, hv⟩ rfl rfl

/-- `SYNC_FETCH_AND_OR`: a value is tagged, a removed one is buried, and what has a tag
keeps it. -/
theorem copyTag_ok (hkt : kt.Lawful) (hi : s.Inv kt) (hl : Loc kt t s (.copyTag c j)) :
    StepOk kt t s (.copyTag c j)
      (if Dead (s.ht.val c.i c.e) then
        (s.setVal c.i c.e (tagValue (s.ht.val c.i c.e)),
          c.next kt (s.ht.setVal c.i c.e (tagValue (s.ht.val c.i c.e))) false)
      else if s.ht.val c.i c.e = tombstone then
        ((s.setVal c.i c.e (tagValue (s.ht.val c.i c.e))).credit t c.i c.e,
          c.next kt (s.ht.setVal c.i c.e (tagValue (s.ht.val c.i c.e))) true)
      else
        (s.setVal c.i c.e (tagValue (s.ht.val c.i c.e)),
          .copyKey c j (stripTag (s.ht.val c.i c.e)))) := by
  obtain ⟨hc, h0⟩ : CopyTo kt s.ht c j ∧ s.ht.val c.i c.e ≠ doesNotExist := hl.knows
  have hlt : c.i < s.ht.len := Nat.lt_of_succ_lt hc.next
  have hsame : IsTagged (s.ht.val c.i c.e) →
      s.setVal c.i c.e (tagValue (s.ht.val c.i c.e)) = s := by
    intro ht
    have heq : s.ht.setVal c.i c.e (tagValue (s.ht.val c.i c.e)) = s.ht := by
      rw [tagValue_of_isTagged ht]
      exact Ht.setVal_eq_self rfl
    unfold Shared.setVal
    rw [heq]
  by_cases hd : Dead (s.ht.val c.i c.e)
  · rw [if_pos hd]
    have heq : s.ht.setVal c.i c.e (tagValue (s.ht.val c.i c.e)) = s.ht :=
      congrArg Shared.ht (hsame hd.isTagged)
    rw [hsame hd.isTagged, heq]
    exact dead_ok hi hl rfl rfl hc.toCopyAt hd
  · rw [if_neg hd]
    by_cases htomb : s.ht.val c.i c.e = tombstone
    · rw [if_pos htomb]
      refine kill_ok hkt hi hl rfl rfl hc.toCopyAt (Or.inr ⟨htomb, ?_⟩)
      rw [htomb]
    · rw [if_neg htomb]
      rcases hi.chain.stored c.i c.e hlt with hv | hv | hleg | hdead | ⟨u, hleg, hv⟩
      · exact absurd hv h0
      · exact absurd hv htomb
      · -- a value is tagged
        have ht := hleg.2.1
        have hbi : s.ht.hti ≤ c.i := hi.chain.base_le hc.entry hd
        have hcases : (s.ht.val c.i c.e = doesNotExist
              ∧ tagValue (s.ht.val c.i c.e) = copiedValue)
            ∨ (s.ht.val c.i c.e = tombstone ∧ tagValue (s.ht.val c.i c.e) = tagValue tombstone)
            ∨ (Legal (s.ht.val c.i c.e)
              ∧ tagValue (s.ht.val c.i c.e) = tagValue (s.ht.val c.i c.e)) :=
          Or.inr (Or.inr ⟨hleg, rfl⟩)
        obtain ⟨hchain, hkept⟩ := hi.chain.shut hc.entry hc.next hcases
        obtain ⟨hg, hstill⟩ := grows_shut hkt hi.chain hbi hlt hcases
        have hself : (s.ht.setVal c.i c.e (tagValue (s.ht.val c.i c.e))).val c.i c.e
            = tagValue (s.ht.val c.i c.e) := Ht.setVal_val_self _
        rw [stripTag_of_not ht]
        have hkey : s.ht.key c.i c.e ≠ doesNotExist :=
          hi.chain.val_key c.i c.e hlt hleg.1 fun hcop => hd (Or.inl hcop)
        refine ⟨⟨hchain, hi.history.tag hi.chain hg hstill hlt hc.entry hleg rfl,
            hi.ledger.sameCounters (setVal_counters_same s.ht c.i c.e _)⟩,
          ⟨⟨hc.stable hg, hleg, hg.key_ne hlt hkey, Or.inl hself⟩, hl.owed, hl.won⟩,
          fun u _ => ⟨hg, fun _ => rfl, fun _ _ => Iff.rfl⟩, Or.inl hkept⟩
      · exact absurd hdead hd
      · -- another thread has tagged it
        have ht : IsTagged (s.ht.val c.i c.e) := by
          rw [hv]
          exact isTagged_tagValue u
        rw [hsame ht]
        refine StepOk.stay hi hl ?_ rfl rfl
        rw [hv, stripTag_tagValue hleg.2.1]
        exact ⟨hc, hleg, hleg.tagValue_key hi.chain hlt hv, Or.inl hv⟩

/-- The source of a copier has a tag. -/
theorem Carries.isTagged (hc : Carries kt h c j u) : IsTagged (h.val c.i c.e) := by
  rcases hc.source with hv | ⟨hv, -⟩
  · rw [hv]
    exact isTagged_tagValue u
  · rw [hv]
    exact isTagged_tagValue _

/-- The tables before table `j` have given the key of the copier away, or are about to. -/
theorem Carries.below {b : ℕ} (hi : Hashtable.Inv kt h b) (hc : Carries kt h c j u) :
    ∀ m, b ≤ m → m < j → h.cell kt (kt.keyOf (h.key c.i c.e)) m = .full
      ∨ (h.cell kt (kt.keyOf (h.key c.i c.e)) m).Tagged := by
  have hlt : c.i < h.len := Nat.lt_of_succ_lt hc.next
  have hcell := Ht.cell_of_key (hi.found c.i c.e hlt hc.key_ne) hc.key_ne
  intro m hbm hmj
  rcases Nat.lt_trichotomy m c.i with hmi | rfl | hmi
  · refine (hi.column _).behind m c.i hbm hmi hlt ?_
    rw [hcell]
    exact cellOf_installed _
  · rw [hcell]
    exact Or.inr (cellOf_tagged hc.isTagged)
  · exact (hc.skips m hmi hmj).2.passed.full_or_tagged

/-- When the copier comes to an entry without a value, its own value has not come anywhere. -/
theorem Carries.not_moved (hc : Carries kt h c j u)
    (hj : h.cell kt (kt.keyOf (h.key c.i c.e)) j = .blank) :
    ¬ Moved (h.cell kt (kt.keyOf (h.key c.i c.e))) (c.i + 1) h.len := by
  rintro ⟨r, hir, hr, hv, hsk⟩
  rcases Nat.lt_trichotomy r j with hrj | rfl | hrj
  · have hs := (hc.skips r hir hrj).2
    cases hcr : h.cell kt (kt.keyOf (h.key c.i c.e)) r <;> rw [hcr] at hs hv <;>
      first | exact hs | exact hv
  · rw [hj] at hv
    exact hv
  · have hs := hsk j hc.lt hrj
    rw [hj] at hs
    exact hs

/-- `hti_copy_entry` reads the key. -/
theorem copyKey_ok (hi : s.Inv kt) (hl : Loc kt t s (.copyKey c j u)) :
    StepOk kt t s (.copyKey c j u)
      (s, Finder.search (.copy { c with
          keyHash := if c.keyHash = 0 then kt.hash (kt.keyOf (s.ht.key c.i c.e)) else c.keyHash }
        u (s.ht.key c.i c.e)) j
        ((s.ht.tables j).probes
          (if c.keyHash = 0 then kt.hash (kt.keyOf (s.ht.key c.i c.e)) else c.keyHash))) := by
  have hc : Carries kt s.ht c j u := hl.knows
  have hhash : (if c.keyHash = 0 then kt.hash (kt.keyOf (s.ht.key c.i c.e)) else c.keyHash)
      = kt.hash (kt.keyOf (s.ht.key c.i c.e)) := by
    split_ifs with h0
    · rfl
    · exact (hc.hash.resolve_left h0).2
  rw [hhash]
  have hc' : Carries kt s.ht { c with keyHash := kt.hash (kt.keyOf (s.ht.key c.i c.e)) } j u :=
    ⟨⟨⟨hc.next, hc.entry, Or.inr ⟨hc.key_ne, rfl⟩, hc.src⟩, hc.lt, hc.lt_len, hc.skips⟩, hc.legal,
      hc.key_ne, hc.source⟩
  obtain ⟨hp, hw⟩ := search_copy_pend
    { c with keyHash := kt.hash (kt.keyOf (s.ht.key c.i c.e)) } u (s.ht.key c.i c.e) j
    ((s.ht.tables j).probes (kt.hash (kt.keyOf (s.ht.key c.i c.e))))
  refine StepOk.stay hi hl (Finder.search_knows ⟨hc', rfl, rfl⟩ (Finding.start kt s.ht _ j)) ?_ hw
  exact hp

/-- The `SYNC_CAS` of `hti_copy_entry` on a key. -/
theorem copyInstall_ok (hkt : kt.Lawful) (hi : s.Inv kt)
    (hl : Loc kt t s (.copyInstall c j u f w)) :
    StepOk kt t s (.copyInstall c j u f w)
      (if s.ht.key j f = doesNotExist then
        ({ s with ht := s.ht.setKey j f w }, .copyKeyCount c j u f)
      else (s, .copyVal c j)) := by
  obtain ⟨hc, hw, rest, hf⟩ : Carries kt s.ht c j u ∧ w = s.ht.key c.i c.e
    ∧ ∃ rest, Finding kt s.ht (kt.keyOf w) j (f :: rest) := hl.knows
  have hlt : c.i < s.ht.len := Nat.lt_of_succ_lt hc.next
  by_cases hkey : s.ht.key j f = doesNotExist
  · rw [if_pos hkey]
    have hgood := hi.chain.good c.i c.e hlt hc.key_ne
    rw [← hw] at hgood
    have hbelow := hc.below hi.chain
    rw [← hw] at hbelow
    refine installed_ok hkt hi hl hc.lt_len hkey hgood (Finding.empty hf hkey) hbelow ?_ rfl rfl
    intro hg hentry
    refine ⟨hc.stable hg, ?_⟩
    rw [hg.key c.i c.e hlt hc.key_ne, ← hw]
    exact hentry
  · rw [if_neg hkey]
    exact StepOk.stay hi hl hc.toCopyTo rfl rfl

/-- **The `SYNC_CAS` of `hti_copy_entry` on a value.** -/
theorem copyPut_ok (hkt : kt.Lawful) (hi : s.Inv kt) (hl : Loc kt t s (.copyPut c j u f)) :
    StepOk kt t s (.copyPut c j u f)
      (if s.ht.val j f = doesNotExist then
        ((s.setVal j f u).setWon c.i c.e (some t), .copyStore c j true)
      else if s.ht.val j f = copiedValue then (s, .copyTo c j)
      else (s, .copyStore c j false)) := by
  obtain ⟨hc, hf, hkey⟩ : Carries kt s.ht c j u
    ∧ EntryOf kt s.ht (kt.keyOf (s.ht.key c.i c.e)) j f := hl.knows
  have hlt : c.i < s.ht.len := Nat.lt_of_succ_lt hc.next
  have hcell := Ht.cell_of_key hf hkey
  by_cases hv : s.ht.val j f = doesNotExist
  · rw [if_pos hv]
    have hblank : s.ht.cell kt (kt.keyOf (s.ht.key c.i c.e)) j = .blank := by
      rw [hcell, hv]
      exact cellOf_blank
    have hnot := hc.not_moved hblank
    have hsrc : s.ht.val c.i c.e = tagValue u := hc.source.resolve_right fun h => hnot h.2
    have hwon : s.won c.i c.e = none := by
      by_contra hw
      exact hnot (hi.history.winner c.i c.e hw).2.2.2.2
    have hskip : ∀ m, c.i + 1 ≤ m → m < j →
        (s.ht.cell kt (kt.keyOf (s.ht.key c.i c.e)) m).Skipped := fun m hm hmj =>
      (hc.skips m hm hmj).2
    obtain ⟨hchain, hkept⟩ := hi.chain.arrive hkt hc.legal hsrc hc.entry hc.lt hc.lt_len hkey hv hf
      hskip
    obtain ⟨hg, hstill⟩ := grows_arrive hkt hi.chain hc.lt_len hc.legal hsrc hc.lt hv hf hkey hskip
    have hmoved : Moved ((s.ht.setVal j f u).cell kt (kt.keyOf (s.ht.key c.i c.e))) (c.i + 1)
        s.ht.len := by
      refine ⟨j, hc.lt, hc.lt_len, ?_, fun m hm hmj => ?_⟩
      · rw [Ht.cell_setVal_self u hf hkey, cellOf_live hc.legal]
        trivial
      · rw [Ht.cell_setVal u fun h => hmj.ne h.1]
        exact hskip m hm hmj
    have hk : Knows kt (s.ht.setVal j f u) (.copyStore c j true) := by
      refine ⟨⟨u, hc.stable hg⟩, ?_⟩
      rw [Ht.setVal_key]
      exact hmoved
    have hself : ∀ x, Function.update s.won c.i (Function.update (s.won c.i) c.e x) c.i c.e = x :=
      fun x => by rw [Function.update_self, Function.update_self]
    have hother : ∀ k x y, ¬ (k = c.i ∧ x = c.e) →
        Function.update s.won c.i (Function.update (s.won c.i) c.e y) k x = s.won k x := by
      intro k x y hne
      by_cases hk : k = c.i
      · subst hk
        rw [Function.update_self, Function.update_of_ne fun hx => hne ⟨rfl, hx⟩]
      · rw [Function.update_of_ne hk]
    refine ⟨⟨hchain, hi.history.arrive hi.chain hg hstill hlt hc.entry hc.legal hsrc hc.lt hmoved t,
        hi.ledger.sameCounters (setVal_counters_same s.ht j f u)⟩, ⟨hk, hl.owed, fun k x => ?_⟩,
      fun r hr => ⟨hg, fun _ => rfl, fun k x => ?_⟩, Or.inl hkept⟩
    · show Function.update s.won c.i (Function.update (s.won c.i) c.e (some t)) k x = some t
        ↔ some (c.i, c.e) = some (k, x)
      by_cases hkx : k = c.i ∧ x = c.e
      · obtain ⟨rfl, rfl⟩ := hkx
        rw [hself]
        exact iff_of_true rfl rfl
      · rw [hother k x _ hkx, hl.won k x]
        refine iff_of_false nofun fun h => ?_
        obtain ⟨h₁, h₂⟩ := Prod.mk.inj (Option.some.inj h)
        exact hkx ⟨h₁.symm, h₂.symm⟩
    · show Function.update s.won c.i (Function.update (s.won c.i) c.e (some t)) k x = some r
        ↔ s.won k x = some r
      by_cases hkx : k = c.i ∧ x = c.e
      · obtain ⟨rfl, rfl⟩ := hkx
        rw [hself, hwon]
        exact iff_of_false (fun h => hr (Option.some.inj h).symm) nofun
      · rw [hother k x _ hkx]
  · rw [if_neg hv]
    by_cases hcop : s.ht.val j f = copiedValue
    · -- the entry is dead: on to the next table
      rw [if_pos hcop]
      refine StepOk.stay hi hl ⟨hc.toCopyAt, hc.lt.trans (Nat.lt_succ_self j), ?_, fun m hm hmj => ?_⟩
        rfl rfl
      · refine hi.chain.next j f hc.lt_len ?_
        rw [hcop]
        exact isTagged_tagValue _
      · by_cases hmj' : m = j
        · refine ⟨hc.key_ne, ?_⟩
          rw [hmj', hcell, hcop, cellOf_copied]
          trivial
        · exact hc.skips m hm (by omega)
    · -- the value has come already
      rw [if_neg hcop]
      refine StepOk.stay hi hl ⟨⟨u, hc⟩, ?_⟩ rfl rfl
      refine ⟨j, hc.lt, hc.lt_len, ?_, fun m hm hmj => (hc.skips m hm hmj).2⟩
      rw [hcell]
      exact cellOf_valued hv hcop

/-- The store of `COPIED_VALUE`. -/
theorem copyStore_ok (hkt : kt.Lawful) (hi : s.Inv kt) (hl : Loc kt t s (.copyStore c j did)) :
    StepOk kt t s (.copyStore c j did)
      (s.setVal c.i c.e copiedValue,
        if did then .copySub c j else c.next kt (s.ht.setVal c.i c.e copiedValue) false) := by
  obtain ⟨⟨u, hc⟩, hm⟩ : (∃ u, Carries kt s.ht c j u)
    ∧ Moved (s.ht.cell kt (kt.keyOf (s.ht.key c.i c.e))) (c.i + 1) s.ht.len := hl.knows
  have hlt : c.i < s.ht.len := Nat.lt_of_succ_lt hc.next
  have hself : (s.ht.setVal c.i c.e copiedValue).val c.i c.e = copiedValue := Ht.setVal_val_self _
  -- what the thread has to know next
  have hnext : CopyAt kt (s.ht.setVal c.i c.e copiedValue) c → ∀ pc', pc' = (if did then
        Pc.copySub c j else c.next kt (s.ht.setVal c.i c.e copiedValue) false) →
      Knows kt (s.ht.setVal c.i c.e copiedValue) pc' ∧ pc'.pend = (Pc.copyStore c j did).pend
        ∧ pc'.wins = (Pc.copyStore c j did).wins := by
    rintro hc' pc' rfl
    cases did with
    | true => exact ⟨⟨hc', hself⟩, rfl, rfl⟩
    | false =>
      obtain ⟨hp, hw⟩ := Copy.next_pend kt (s.ht.setVal c.i c.e copiedValue) c false
      exact ⟨Copy.next_knows hc' (by rw [hself]; exact Or.inl rfl) false, hp, hw⟩
  rcases hc.source with hv | ⟨hv, -⟩
  · have hbi : s.ht.hti ≤ c.i := hi.chain.base_le hc.entry (by
      rw [hv]
      exact hc.legal.tagValue_not_dead)
    have hcell : s.ht.cell kt (kt.keyOf (s.ht.key c.i c.e)) c.i = .moving u := by
      rw [Ht.cell_of_key (hi.chain.found c.i c.e hlt hc.key_ne) hc.key_ne, hv]
      exact cellOf_moving hc.legal
    have harr := ((hi.chain.column _).settled c.i u hbi hlt hcell).arrived hm
    obtain ⟨hchain, hkept⟩ := hi.chain.finish hkt hlt hc.legal hv hc.entry harr
    obtain ⟨hg, hstill⟩ := grows_finish hkt hi.chain hlt hc.legal hv hm
    obtain ⟨hk, hp, hw⟩ := hnext (hc.toCopyAt.stable hg) _ rfl
    refine ⟨⟨hchain, hi.history.finish hg hstill hc.legal hv hm,
        hi.ledger.sameCounters (setVal_counters_same s.ht c.i c.e copiedValue)⟩,
      ⟨hk, fun k => ?_, fun k x => ?_⟩, fun r _ => ⟨hg, fun _ => rfl, fun _ _ => Iff.rfl⟩,
      Or.inl hkept⟩
    · rw [hp]
      exact hl.owed k
    · rw [hw]
      exact hl.won k x
  · -- another copier has stored it
    have heq : s.ht.setVal c.i c.e copiedValue = s.ht := Ht.setVal_eq_self hv
    have hsame : s.setVal c.i c.e copiedValue = s := by
      unfold Shared.setVal
      rw [heq]
    obtain ⟨hk, hp, hw⟩ := hnext (by rw [heq]; exact hc.toCopyAt) _ rfl
    rw [heq] at hk hp hw
    rw [hsame, heq]
    exact StepOk.stay hi hl hk hp hw

/-- The winner takes the value from the count of its table. -/
theorem copySub_ok (hi : s.Inv kt) (hl : Loc kt t s (.copySub c j)) :
    StepOk kt t s (.copySub c j)
      ({ s with ht := s.ht.addCount c.i (2 ^ 64 - 1) }, .copyAdd c j) :=
  StepOk.counter hi hl (addCount_entries s.ht c.i _) rfl (addCount_ledger hi.ledger c.i _)
    ((show Knows kt s.ht (.copySub c j) from hl.knows).stable
      (Grows.sameEntries (addCount_entries s.ht c.i (2 ^ 64 - 1)) le_rfl)) rfl rfl

/-- The winner adds the value to the count of the other table, and returns `TRUE`. -/
theorem copyAdd_ok (hi : s.Inv kt) (hl : Loc kt t s (.copyAdd c j)) :
    StepOk kt t s (.copyAdd c j)
      ((({ s with ht := s.ht.addCount j 1 } : Shared).setWon c.i c.e none).credit t c.i c.e,
        c.next kt (s.ht.addCount j 1) true) := by
  obtain ⟨hc, hv⟩ : CopyAt kt s.ht c ∧ s.ht.val c.i c.e = copiedValue := hl.knows
  have hlt : c.i < s.ht.len := Nat.lt_of_succ_lt hc.next
  have hent := addCount_entries s.ht j 1
  have hg : Grows kt s.ht (s.ht.addCount j 1) := Grows.sameEntries hent le_rfl
  obtain ⟨hchain, hkept⟩ := hi.chain.sameEntries hent
  have hwon : s.won c.i c.e = some t := (hl.won c.i c.e).mpr rfl
  have hdead : Dead ((s.ht.addCount j 1).val c.i c.e) := by
    rw [hent.val_eq, hv]
    exact Or.inl rfl
  have hhist := (hi.history.tables hi.chain hg (TagsBack.sameEntries hent) fun k x _ =>
    Still.sameEntries hent k x).account (i := c.i) (e := c.e) (by rw [hwon]; simp) hdead
  obtain ⟨hp, hw⟩ := Copy.next_pend kt (s.ht.addCount j 1) c true
  have hled := (addCount_ledger hi.ledger j 1).credit (i := c.i) (e := c.e) hlt
    (by rw [hent.scale]; exact hc.entry) t
  have hother : ∀ k x, ¬ (k = c.i ∧ x = c.e) →
      Function.update s.won c.i (Function.update (s.won c.i) c.e none) k x = s.won k x := by
    intro k x hne
    by_cases hk : k = c.i
    · subst hk
      rw [Function.update_self, Function.update_of_ne fun hx => hne ⟨rfl, hx⟩]
    · rw [Function.update_of_ne hk]
  have hself : Function.update s.won c.i (Function.update (s.won c.i) c.e none) c.i c.e = none := by
    rw [Function.update_self, Function.update_self]
  refine ⟨⟨hchain, hhist, hled⟩, ⟨Copy.next_knows (hc.stable hg) hdead true, fun k => ?_,
    fun k x => ?_⟩, fun r hr => ⟨hg, fun k => ?_, fun k x => ?_⟩, Or.inl hkept⟩
  · show ((t, c.i) :: s.owed).count (t, k) = (c.next kt (s.ht.addCount j 1) true).pend k
    have ho : s.owed.count (t, k) = if c.i = k then c.src.pend else 0 := hl.owed k
    rw [count_credit, hp, ho]
    simp only [true_and, Bool.toNat_true]
    split_ifs <;> omega
  · show Function.update s.won c.i (Function.update (s.won c.i) c.e none) k x = some t
      ↔ (c.next kt (s.ht.addCount j 1) true).wins = some (k, x)
    rw [hw]
    refine iff_of_false (fun h => ?_) nofun
    by_cases hkx : k = c.i ∧ x = c.e
    · obtain ⟨rfl, rfl⟩ := hkx
      rw [hself] at h
      cases h
    · rw [hother k x hkx, hl.won k x] at h
      obtain ⟨h₁, h₂⟩ := Prod.mk.inj (Option.some.inj h)
      exact hkx ⟨h₁.symm, h₂.symm⟩
  · show ((t, c.i) :: s.owed).count (r, k) = s.owed.count (r, k)
    rw [count_credit, if_neg fun h => hr h.1, Nat.add_zero]
  · show Function.update s.won c.i (Function.update (s.won c.i) c.e none) k x = some r
      ↔ s.won k x = some r
    by_cases hkx : k = c.i ∧ x = c.e
    · obtain ⟨rfl, rfl⟩ := hkx
      rw [hself, hwon]
      exact iff_of_false nofun fun h => hr (Option.some.inj h).symm
    · rw [hother k x hkx]

end CopyEntry

/-! ## All steps -/

section Steps

variable {f : Finder} {j e : ℕ} {rest : List ℕ}

/-- `hti_lookup` looks at an entry. -/
theorem find_ok (hi : s.Inv kt) (hl : Loc kt t s (.find f j e rest)) :
    StepOk kt t s (.find f j e rest)
      (if s.ht.key j e = doesNotExist then (s, f.empty j e)
      else if kt.keyEq (s.ht.key j e) (f.key kt) (f.keyHash kt) = true then (s, f.found j e)
      else (s, f.search j rest)) := by
  obtain ⟨hf, hs⟩ : f.At kt s.ht j ∧ Finding kt s.ht (f.key kt) j (e :: rest) := hl.knows
  have hhash : f.keyHash kt = kt.hash (f.key kt) := by
    cases f with
    | op o => rfl
    | copy c u w => exact hf.2.2
  by_cases hkey : s.ht.key j e = doesNotExist
  · rw [if_pos hkey]
    cases f with
    | copy c u w => exact StepOk.stay hi hl ⟨hf.1, hf.2.1, rest, hs⟩ rfl rfl
    | op o =>
      cases o with
      | get key iter => exact StepOk.stay hi hl trivial rfl rfl
      | set a =>
        unfold Finder.empty
        simp only
        split_ifs
        · exact StepOk.stay hi hl trivial rfl rfl
        · exact StepOk.stay hi hl ⟨hf, rest, hs⟩ rfl rfl
  · rw [if_neg hkey]
    by_cases heq : kt.keyEq (s.ht.key j e) (f.key kt) (f.keyHash kt) = true
    · rw [if_pos heq]
      rw [hhash] at heq
      have hentry : EntryOf kt s.ht (f.key kt) j e :=
        ⟨hs.find (Hti.stopsAt_iff.mpr (Or.inr heq)), hkey⟩
      cases f with
      | copy c u w =>
        refine StepOk.stay hi hl ⟨hf.1, ?_⟩ rfl rfl
        rw [← hf.2.1]
        exact hentry
      | op o =>
        cases o with
        | get key iter => exact StepOk.stay hi hl ⟨hf, hentry⟩ rfl rfl
        | set a => exact StepOk.stay hi hl ⟨hf, hentry⟩ rfl rfl
    · rw [if_neg heq]
      rw [hhash] at heq
      have hnext := hs.next fun hstop => (Hti.stopsAt_iff.mp hstop).elim hkey heq
      have hknows := Finder.search_knows hf hnext
      cases f with
      | copy c u w =>
        obtain ⟨hp, hw⟩ := search_copy_pend c u w j rest
        exact StepOk.stay hi hl hknows hp hw
      | op o =>
        obtain ⟨hp, hw⟩ := search_op_pend o j rest
        exact StepOk.stay hi hl hknows hp hw

/-- An entry that has a tag is copied, or has been: what `hti_cas` and `hti_get` do then. -/
theorem tagged_ok {o : Op} (hkt : kt.Lawful) (hi : s.Inv kt) (hl : Loc kt t s pc)
    (hpc : pc.pend = (fun _ => 0) ∧ pc.wins = none) (ho : OpAt kt s.ht o j)
    (hentry : EntryOf kt s.ht o.key j e) (ht : IsTagged (s.ht.val j e)) :
    StepOk kt t s pc
      (if Dead (s.ht.val j e) then (s, .nextTable o j)
      else (s, .copyTo ⟨.op o, j, e, kt.hash o.key⟩ j)) := by
  have hn := hi.chain.next j e ho.lt ht
  by_cases hd : Dead (s.ht.val j e)
  · rw [if_pos hd]
    refine StepOk.stay hi hl ⟨ho.ok, hn, fun hit m hm hlt => ?_⟩ hpc.1.symm hpc.2.symm
    by_cases hmj : m = j
    · rw [hmj, Ht.cell_of_key hentry.1 hentry.2]
      exact cellOf_passed_iff.mpr hd
    · exact ho.passed hit m hm (by omega)
  · rw [if_neg hd]
    have hsame := (hi.chain.find_iff hkt ho.lt hentry.2).mp hentry.1
    refine StepOk.stay hi hl ⟨⟨hn, hi.chain.find_lt ho.lt hentry.1,
      Or.inr ⟨hentry.2, (hsame.hash_eq hkt).symm⟩, ho, hentry⟩, Nat.lt_succ_self j, hn,
      fun m hm hlt => ?_⟩ ?_ hpc.2.symm
    · have hm' : j < m := hm
      omega
    · rw [hpc.1]
      funext i
      exact ite_self _

/-- `ht->hti` is loaded: the call begins at the first table. -/
theorem hti_ok {b : Begin} (hi : s.Inv kt) (hl : Loc kt t s (.hti b)) {r : Shared × Pc}
    (hr : resume kt t s (.hti b) = some r) : StepOk kt t s (.hti b) r := by
  have hk := hl.knows
  cases b with
  | cas a =>
    cases hr
    refine StepOk.stay hi hl ⟨hk, hi.chain.base_lt, fun _ m hm hlt => ?_⟩ rfl rfl
    omega
  | op o =>
    cases hr
    have ho : OpAt kt s.ht o s.ht.hti := ⟨hk, hi.chain.base_lt, fun _ m hm hlt => by omega⟩
    obtain ⟨hp, hw⟩ := search_op_pend o s.ht.hti ((s.ht.tables s.ht.hti).probes (kt.hash o.key))
    exact StepOk.stay hi hl (Op.start_knows ho) hp hw
  | iter =>
    cases hr
    exact StepOk.stay hi hl hi.chain.base_lt rfl rfl

/-- `hti->next` is loaded at the head of a call. -/
theorem check_ok {who : Option Args} {i : ℕ} (hi : s.Inv kt) (hl : Loc kt t s (.check who i))
    {r : Shared × Pc} (hr : resume kt t s (.check who i) = some r) :
    StepOk kt t s (.check who i) r := by
  have hk := hl.knows
  have hw : WhoAt kt s.ht who i := hk
  simp only [resume] at hr
  split at hr
  · rename_i hn
    cases hr
    exact StepOk.stay hi hl ⟨hw, hn⟩ rfl rfl
  · cases who with
    | some a =>
      cases hr
      obtain ⟨hp, hw'⟩ := search_op_pend (.set a) i ((s.ht.tables i).probes (kt.hash a.key))
      exact StepOk.stay hi hl (Op.start_knows hw) hp hw'
    | none =>
      cases hr
      exact StepOk.stay hi hl trivial rfl rfl

/-- `hti->next` is loaded to make it the first table. -/
theorem unlinkNext_ok {a : Args} {i : ℕ} (hi : s.Inv kt) (hl : Loc kt t s (.unlinkNext a i))
    {r : Shared × Pc} (hr : resume kt t s (.unlinkNext a i) = some r) :
    StepOk kt t s (.unlinkNext a i) r := by
  have hk := hl.knows
  simp only [resume] at hr
  split at hr
  · cases hr
    exact StepOk.stay hi hl hk rfl rfl
  · cases hr

/-- `ht_iter_begin` goes on to the next table. -/
theorem iterNext_ok {i : ℕ} (hi : s.Inv kt) (hl : Loc kt t s (.iterNext i)) {r : Shared × Pc}
    (hr : resume kt t s (.iterNext i) = some r) : StepOk kt t s (.iterNext i) r := by
  simp only [resume] at hr
  split at hr
  · rename_i hn
    cases hr
    exact StepOk.stay hi hl hn rfl rfl
  · cases hr

/-- The operation goes on in the next table. -/
theorem nextTable_ok {o : Op} {i : ℕ} (hi : s.Inv kt) (hl : Loc kt t s (.nextTable o i))
    {r : Shared × Pc} (hr : resume kt t s (.nextTable o i) = some r) :
    StepOk kt t s (.nextTable o i) r := by
  have hk := hl.knows
  simp only [resume] at hr
  split at hr
  · cases hr
    obtain ⟨hp, hw⟩ := search_op_pend o (i + 1)
      ((s.ht.tables (i + 1)).probes (kt.hash o.key))
    exact StepOk.stay hi hl (Op.start_knows hk) hp hw
  · cases hr

/-- `hti->copy_scan` is loaded, and a stride of entries taken or not. -/
theorem helpScan_ok {who : Option Args} {i total : ℕ} (hi : s.Inv kt)
    (hl : Loc kt t s (.helpScan who i total)) {r : Shared × Pc}
    (hr : resume kt t s (.helpScan who i total) = some r) :
    StepOk kt t s (.helpScan who i total) r := by
  have hk := hl.knows
  obtain ⟨hw, hn, hd⟩ := hk
  simp only [resume] at hr
  split at hr
  · rename_i htotal
    cases hr
    obtain ⟨hp, hw'⟩ := helped_pend kt s.ht who i true
    exact StepOk.stay hi hl (helped_knows hw hn fun _ => hd htotal) hp hw'
  · split at hr
    · cases hr
      obtain ⟨hp, hw'⟩ := Help.next_pend kt s.ht
        ⟨who, total, 2 ^ (s.ht.tables i).scale, 0⟩ i 0
      refine StepOk.stay hi hl (Help.next_knows hw hn (Nat.zero_add _).le hd) (hp.trans ?_) hw'
      funext j
      exact ite_self _
    · cases hr
      exact StepOk.stay hi hl ⟨hw, hn, hd, hi.ledger.scan i hw.lt⟩ rfl rfl

/-- `hti_start_copy` looks whether there is a next table. -/
theorem growNext_ok {g : Grower} {j : ℕ} (hi : s.Inv kt) (hl : Loc kt t s (.growNext g j))
    {r : Shared × Pc} (hr : resume kt t s (.growNext g j) = some r) :
    StepOk kt t s (.growNext g j) r := by
  have hk := hl.knows
  have ha : g.At kt s.ht j := hk
  have hp : (g.next j).pend = (Pc.growNext g j).pend ∧ (g.next j).wins = none
      ∧ (Pc.growHti g j).pend = (Pc.growNext g j).pend := by
    cases g <;> exact ⟨rfl, rfl, rfl⟩
  simp only [resume] at hr
  split at hr
  · rename_i hn
    cases hr
    exact StepOk.stay hi hl (Grower.next_knows ha hn) hp.1 hp.2.1
  · cases hr
    exact StepOk.stay hi hl ha hp.2.2 rfl

/-- `ht_count` goes on to the next table. -/
theorem growStep_ok {g : Grower} {j m n : ℕ} (hi : s.Inv kt) (hl : Loc kt t s (.growStep g j m n))
    {r : Shared × Pc} (hr : resume kt t s (.growStep g j m n) = some r) :
    StepOk kt t s (.growStep g j m n) r := by
  have hk := hl.knows
  simp only [resume] at hr
  split at hr
  all_goals
    cases hr
    refine StepOk.stay hi hl hk ?_ rfl
    cases g <;> rfl

/-- The key count decides on the scale of the new table. -/
theorem growKeys_ok {g : Grower} {j n : ℕ} (hi : s.Inv kt) (hl : Loc kt t s (.growKeys g j n))
    {r : Shared × Pc} (hr : resume kt t s (.growKeys g j n) = some r) :
    StepOk kt t s (.growKeys g j n) r := by
  have hk := hl.knows
  cases hr
  have ha : g.At kt s.ht j := hk
  refine StepOk.stay hi hl ⟨ha, (hi.chain.scale j ha.lt).trans (newScale_ge _ _ _)⟩ ?_ rfl
  cases g <;> rfl

/-- The new key is counted. -/
theorem keyCount_ok {a : Args} {i e : ℕ} (hi : s.Inv kt) (hl : Loc kt t s (.keyCount a i e))
    {r : Shared × Pc} (hr : resume kt t s (.keyCount a i e) = some r) :
    StepOk kt t s (.keyCount a i e) r := by
  have hk := hl.knows
  cases hr
  have hent := addKeyCount_entries s.ht i
  exact StepOk.counter hi hl hent rfl (addKeyCount_ledger hi.ledger i)
    ((show Knows kt s.ht (.val a i e) from hk).stable (Grows.sameEntries hent le_rfl)) rfl rfl

/-- The value of the entry is loaded. -/
theorem resume_val_ok {a : Args} {i e : ℕ} (hkt : kt.Lawful) (hi : s.Inv kt)
    (hl : Loc kt t s (.val a i e)) {r : Shared × Pc} (hr : resume kt t s (.val a i e) = some r) :
    StepOk kt t s (.val a i e) r := by
  have hk := hl.knows
  obtain ⟨ho, hentry⟩ := hk
  simp only [resume] at hr
  split at hr
  · rename_i ht
    have h := tagged_ok hkt hi hl ⟨rfl, rfl⟩ ho hentry ht
    split_ifs at h hr
    all_goals
      cases hr
      exact h
  · rename_i ht
    split at hr
    · cases hr
      exact StepOk.stay hi hl trivial rfl rfl
    · rename_i hkeeps
      cases hr
      exact StepOk.stay hi hl ⟨ho, hentry, ht, hkeeps⟩ rfl rfl

/-- The CAS on the value. -/
theorem resume_swap_ok {a : Args} {i e v : ℕ} (hkt : kt.Lawful) (hi : s.Inv kt)
    (hl : Loc kt t s (.swap a i e v)) {r : Shared × Pc}
    (hr : resume kt t s (.swap a i e v) = some r) : StepOk kt t s (.swap a i e v) r := by
  have h := swap_ok hkt hi hl
  simp only [resume] at hr
  split at hr
  · rename_i hv
    rw [if_pos hv] at h
    cases hr
    exact h
  · rename_i hv
    rw [if_neg hv] at h
    cases hr
    exact h

/-- A key that is not there: `hti_get` looks for a next table. -/
theorem getNext_ok {key : ℕ} {iter : Bool} {i : ℕ} (hi : s.Inv kt)
    (hl : Loc kt t s (.getNext key iter i)) {r : Shared × Pc}
    (hr : resume kt t s (.getNext key iter i) = some r) :
    StepOk kt t s (.getNext key iter i) r := by
  have hk := hl.knows
  have ho : iter = false → OpAt kt s.ht (.get key iter) i ∧ s.ht.find kt key i = none := hk
  simp only [resume] at hr
  split at hr
  · rename_i hn
    cases hr
    refine StepOk.stay hi hl ⟨trivial, hn, fun hit m hm hlt => ?_⟩ rfl rfl
    by_cases hmi : m = i
    · rw [hmi, show s.ht.cell kt (Op.get key iter).key i = .full from
        Ht.cell_of_none (ho hit).2]
      trivial
    · exact (ho hit).1.passed hit m hm (by omega)
  · cases hr
    exact StepOk.stay hi hl trivial rfl rfl

/-- `hti_get` loads the value. -/
theorem getVal_ok {key : ℕ} {iter : Bool} {i e : ℕ} (hkt : kt.Lawful) (hi : s.Inv kt)
    (hl : Loc kt t s (.getVal key iter i e)) {r : Shared × Pc}
    (hr : resume kt t s (.getVal key iter i e) = some r) :
    StepOk kt t s (.getVal key iter i e) r := by
  have hk := hl.knows
  obtain ⟨ho, hentry⟩ := hk
  simp only [resume] at hr
  split at hr
  · rename_i ht
    have h := tagged_ok hkt hi hl ⟨rfl, rfl⟩ ho hentry ht
    split_ifs at h hr
    all_goals
      cases hr
      exact h
  · cases hr
    exact StepOk.stay hi hl trivial rfl rfl

/-- The next table of the copy is loaded. -/
theorem copyTo_ok {c : Copy} {j : ℕ} (hi : s.Inv kt) (hl : Loc kt t s (.copyTo c j))
    {r : Shared × Pc} (hr : resume kt t s (.copyTo c j) = some r) :
    StepOk kt t s (.copyTo c j) r := by
  have hk := hl.knows
  simp only [resume] at hr
  split at hr
  · cases hr
    exact StepOk.stay hi hl hk rfl rfl
  · cases hr

/-- `hti_copy_entry` loads the value. -/
theorem copyVal_ok {c : Copy} {j : ℕ} (hi : s.Inv kt) (hl : Loc kt t s (.copyVal c j))
    {r : Shared × Pc} (hr : resume kt t s (.copyVal c j) = some r) :
    StepOk kt t s (.copyVal c j) r := by
  have hk := hl.knows
  have hc : CopyTo kt s.ht c j := hk
  simp only [resume] at hr
  split at hr
  · rename_i hd
    cases hr
    exact dead_ok hi hl rfl rfl hc.toCopyAt hd
  · split at hr
    · cases hr
      exact StepOk.stay hi hl hc rfl rfl
    · rename_i h0
      cases hr
      exact StepOk.stay hi hl ⟨hc, h0⟩ rfl rfl

/-- The copied key is counted. -/
theorem copyKeyCount_ok {c : Copy} {j u f : ℕ} (hi : s.Inv kt)
    (hl : Loc kt t s (.copyKeyCount c j u f)) {r : Shared × Pc}
    (hr : resume kt t s (.copyKeyCount c j u f) = some r) :
    StepOk kt t s (.copyKeyCount c j u f) r := by
  have hk := hl.knows
  cases hr
  have hent := addKeyCount_entries s.ht j
  exact StepOk.counter hi hl hent rfl (addKeyCount_ledger hi.ledger j)
    ((show Knows kt s.ht (.copyPut c j u f) from hk).stable (Grows.sameEntries hent le_rfl))
    rfl rfl

/-- **Every step of a running call.** -/
theorem resume_ok (hkt : kt.Lawful) (hi : s.Inv kt) (hl : Loc kt t s pc) {r : Shared × Pc}
    (hr : resume kt t s pc = some r) : StepOk kt t s pc r := by
  have hk := hl.knows
  cases pc with
  | returned r' =>
    rw [resume_returned] at hr
    cases hr
  | hti b => exact hti_ok hi hl hr
  | check who i => exact check_ok hi hl hr
  | unlinkNext a i => exact unlinkNext_ok hi hl hr
  | unlink a i =>
    cases hr
    exact unlink_ok hi hl
  | iterNext i => exact iterNext_ok hi hl hr
  | nextTable o i => exact nextTable_ok hi hl hr
  | helpTotal who i =>
    cases hr
    obtain ⟨hw, hn⟩ := hk
    exact StepOk.stay hi hl ⟨hw, hn, fun h => hi.allDead hw.lt h⟩ rfl rfl
  | helpScan who i total => exact helpScan_ok hi hl hr
  | helpStore who i total x =>
    cases hr
    exact helpStore_ok hi hl
  | helpAdd g i =>
    cases hr
    exact helpAdd_ok hi hl
  | find f j e rest =>
    have h := find_ok hi hl
    simp only [resume] at hr
    split_ifs at h hr
    all_goals
      cases hr
      exact h
  | growNext g j => exact growNext_ok hi hl hr
  | growHti g j =>
    cases hr
    refine StepOk.stay hi hl hk ?_ rfl
    cases g <;> rfl
  | growCount g j m n =>
    cases hr
    refine StepOk.stay hi hl hk ?_ rfl
    cases g <;> rfl
  | growStep g j m n => exact growStep_ok hi hl hr
  | growKeys g j n => exact growKeys_ok hi hl hr
  | growCas g j scale =>
    cases hr
    exact growCas_ok hi hl
  | install a i e =>
    cases hr
    exact install_ok hkt hi hl
  | key a i e w =>
    have h := key_ok hkt hi hl
    simp only [resume] at hr
    split_ifs at h hr
    all_goals
      cases hr
      exact h
  | keyCount a i e => exact keyCount_ok hi hl hr
  | val a i e => exact resume_val_ok hkt hi hl hr
  | swap a i e v => exact resume_swap_ok hkt hi hl hr
  | count a i v =>
    cases hr
    exact StepOk.counter hi hl (addCount_entries s.ht i _) rfl (addCount_ledger hi.ledger i _)
      trivial rfl rfl
  | getNext key iter i => exact getNext_ok hi hl hr
  | getVal key iter i e => exact getVal_ok hkt hi hl hr
  | addCopied o i =>
    cases hr
    exact addCopied_ok hi hl
  | copyTo c j => exact copyTo_ok hi hl hr
  | copyVal c j => exact copyVal_ok hi hl hr
  | copyKill c j =>
    have h := copyKill_ok hkt hi hl
    simp only [resume] at hr
    split_ifs at h hr
    all_goals
      cases hr
      exact h
  | copyTag c j =>
    have h := copyTag_ok hkt hi hl
    simp only [resume] at hr
    split_ifs at h hr
    all_goals
      cases hr
      exact h
  | copyKey c j u =>
    cases hr
    exact copyKey_ok hi hl
  | copyInstall c j u f w =>
    have h := copyInstall_ok hkt hi hl
    simp only [resume] at hr
    split_ifs at h hr
    all_goals
      cases hr
      exact h
  | copyKeyCount c j u f => exact copyKeyCount_ok hi hl hr
  | copyPut c j u f =>
    have h := copyPut_ok hkt hi hl
    simp only [resume] at hr
    split_ifs at h hr
    all_goals
      cases hr
      exact h
  | copyStore c j did =>
    cases hr
    exact copyStore_ok hkt hi hl
  | copySub c j =>
    cases hr
    exact copySub_ok hi hl
  | copyAdd c j =>
    cases hr
    exact copyAdd_ok hi hl

/-- A call begins. -/
theorem invoke_ok (hi : s.Inv kt) (hl : Loc kt t s pc) {cmd : Cmd}
    (hp : invoke pc cmd = some pc') : StepOk kt t s pc (s, pc') := by
  cases pc with
  | returned r =>
    cases cmd with
    | cas a =>
      simp only [invoke] at hp
      split at hp
      · rename_i ha
        cases hp
        exact StepOk.stay hi hl ⟨ha.1, Or.inr ha.2⟩ rfl rfl
      · cases hp
    | get key =>
      cases hp
      exact StepOk.stay hi hl trivial rfl rfl
    | remove key =>
      simp only [invoke] at hp
      split at hp
      · rename_i ha
        cases hp
        exact StepOk.stay hi hl ⟨ha, Or.inl rfl⟩ rfl rfl
      · cases hp
    | iter =>
      cases hp
      exact StepOk.stay hi hl trivial rfl rfl
    | next key i =>
      cases hp
      exact StepOk.stay hi hl nofun rfl rfl
    | resume => cases hp
  | _ => cases hp

/-- **Every step.** -/
theorem step_ok (hkt : kt.Lawful) (hi : s.Inv kt) (hl : Loc kt t s pc) {cmd : Cmd}
    {r : Shared × Pc} (hr : step kt t s pc cmd = some r) : StepOk kt t s pc r := by
  by_cases hc : cmd = .resume
  · subst hc
    exact resume_ok hkt hi hl hr
  · have hinv : (invoke pc cmd).map (fun pc' => (s, pc')) = some r := by
      rw [← hr]
      cases cmd <;> first | rfl | exact absurd rfl hc
    obtain ⟨pc', hp, rfl⟩ := Option.map_eq_some_iff.mp hinv
    exact invoke_ok hi hl hp

end Steps

/-! ## The threads together -/

/-- **Every thread keeps what the others rely on.** -/
theorem relyGuarantee (hkt : kt.Lawful) :
    RelyGuarantee (step kt) (fun _ _ _ _ => True) (Shared.Inv kt) (Loc kt) (Rely kt) where
  guarantee := fun _ _ _ _ _ _ hi hl _ hr =>
    have h := step_ok hkt hi hl hr
    ⟨h.inv, h.loc, h.rely⟩
  stable := fun _ _ _ _ _ hr hl => hl.stable hr

/-- It holds at the start. -/
theorem init_holds (kt : KeyType) : init.Holds (Shared.Inv kt) (Loc kt) := by
  have hval : ∀ i e, htAlloc.val i e = doesNotExist := fun _ _ => rfl
  refine ⟨⟨htAlloc_inv kt, ⟨fun i e h => absurd rfl h, fun i e h => absurd rfl h,
    fun i e _ _ hd => ?_, fun i e u _ _ hl hv => ?_⟩, ⟨fun i _ => ?_, nofun, fun i _ => ?_⟩⟩,
    fun t => ⟨trivial, fun i => rfl, fun i e => iff_of_false nofun nofun⟩⟩
  · rw [show init.shared.ht.val i e = doesNotExist from hval i e] at hd
    exact absurd hd (by decide)
  · have ht := isTagged_tagValue u
    rw [← hv, show init.shared.ht.val i e = doesNotExist from hval i e] at ht
    exact absurd ht (by decide)
  · exact Finset.sum_const_zero
  · exact dvd_zero _

/-- Every reachable state. -/
theorem holds_run (hkt : kt.Lawful) {es : List (ℕ × Cmd)} {c : Conf Shared Pc}
    (hrun : run (sys kt) init es = some c) : c.Holds (Shared.Inv kt) (Loc kt) :=
  (relyGuarantee hkt).holds_run (init_holds kt) (stepsMeet_of_forall (fun _ _ => trivial) _ _) hrun

end HashtableSteps
