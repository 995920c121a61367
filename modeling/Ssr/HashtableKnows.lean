/-
# What the threads know about the hash table

The invariant of the tables and their history, and what a thread knows where it stands,
which the steps of the other threads leave true.

* `Shared.Inv` — the tables, and what `hti_copy_entry` has returned for their entries;
* `Shared.Inv.allDead` — a table is passed by `ht->hti` when all its entries are dead;
* `Knows` — what a thread knows about the tables;
* `Rely`, `Loc.stable` — what the other threads leave alone.
-/
import Ssr.HashtableGrows
import Ssr.HashtableSteps

open Interleaving Map Migration Hashtable

namespace HashtableSteps

/-! ## The invariant -/

/-- What is owed to table `i`. -/
def owedTo (owed : List (ℕ × ℕ)) (i : ℕ) : ℕ := owed.countP fun x => x.2 = i

/-- What `hti_copy_entry` has returned for the entries: it has returned `TRUE` for the dead
ones, once for each, or it is about to. -/
structure History (kt : KeyType) (h : Ht) (trues : ℕ → ℕ → ℕ) (won : ℕ → ℕ → Option ℕ) :
    Prop where
  credited : ∀ i e, trues i e ≠ 0 → i < h.len ∧ e < 2 ^ (h.tables i).scale
    ∧ trues i e = 1 ∧ Dead (h.val i e) ∧ won i e = none
  winner : ∀ i e, won i e ≠ none → i < h.len ∧ e < 2 ^ (h.tables i).scale
    ∧ h.key i e ≠ doesNotExist ∧ IsTagged (h.val i e)
    ∧ Moved (h.cell kt (kt.keyOf (h.key i e))) (i + 1) h.len
  settled : ∀ i e, i < h.len → e < 2 ^ (h.tables i).scale → Dead (h.val i e) →
    trues i e = 1 ∨ won i e ≠ none
  unmoved : ∀ i e u, i < h.len → e < 2 ^ (h.tables i).scale → Legal u →
    h.val i e = tagValue u → won i e = none →
    ¬ Moved (h.cell kt (kt.keyOf (h.key i e))) (i + 1) h.len

/-- What `hti_copy_entry` has returned is counted, or still owed. -/
structure Ledger (h : Ht) (trues : ℕ → ℕ → ℕ) (owed : List (ℕ × ℕ)) : Prop where
  counted : ∀ i, i < h.len → ∑ e ∈ Finset.range (2 ^ (h.tables i).scale), trues i e
    = (h.tables i).numEntriesCopied + owedTo owed i
  owing : ∀ x ∈ owed, x.2 < h.len
  scan : ∀ i, i < h.len → entriesPerCopyChunk ∣ (h.tables i).copyScan

/-- **The invariant.** -/
structure Shared.Inv (kt : KeyType) (s : Shared) : Prop where
  chain : Hashtable.Inv kt s.ht s.ht.hti
  history : History kt s.ht s.trues s.won
  ledger : Ledger s.ht s.trues s.owed

/-- All entries of table `i` are dead. -/
def AllDead (h : Ht) (i : ℕ) : Prop := ∀ e, e < 2 ^ (h.tables i).scale → Dead (h.val i e)

section Inv

variable {kt : KeyType} {h : Ht} {trues : ℕ → ℕ → ℕ} {won : ℕ → ℕ → Option ℕ} {i e : ℕ}
  {s : Shared}

theorem History.trues_le (hh : History kt h trues won) (i e : ℕ) : trues i e ≤ 1 := by
  by_cases h0 : trues i e = 0
  · omega
  · exact (hh.credited i e h0).2.2.1.le

theorem History.trues_eq_zero (hh : History kt h trues won) (hd : ¬ Dead (h.val i e)) :
    trues i e = 0 := by
  by_contra h0
  exact hd (hh.credited i e h0).2.2.2.1

theorem History.won_eq_none (hh : History kt h trues won) (ht : ¬ IsTagged (h.val i e)) :
    won i e = none := by
  by_contra h0
  exact ht (hh.winner i e h0).2.2.2.1

/-- No more is counted than there are entries. -/
theorem Shared.Inv.copied_le (hi : s.Inv kt) (hlt : i < s.ht.len) :
    (s.ht.tables i).numEntriesCopied ≤ 2 ^ (s.ht.tables i).scale := by
  have hsum : ∑ e ∈ Finset.range (2 ^ (s.ht.tables i).scale), s.trues i e
      ≤ ∑ _e ∈ Finset.range (2 ^ (s.ht.tables i).scale), 1 :=
    Finset.sum_le_sum fun e _ => hi.history.trues_le i e
  rw [hi.ledger.counted i hlt] at hsum
  simp only [Finset.sum_const, Finset.card_range, smul_eq_mul, mul_one] at hsum
  omega

/-- When as much is counted as there are entries, all of them are dead. -/
theorem Shared.Inv.allDead (hi : s.Inv kt) (hlt : i < s.ht.len)
    (hall : (s.ht.tables i).numEntriesCopied = 2 ^ (s.ht.tables i).scale) : AllDead s.ht i := by
  intro e he
  have hle : ∀ x ∈ Finset.range (2 ^ (s.ht.tables i).scale), s.trues i x ≤ 1 := fun x _ =>
    hi.history.trues_le i x
  have hsum := hi.ledger.counted i hlt
  have hone : ∀ x ∈ Finset.range (2 ^ (s.ht.tables i).scale), s.trues i x = 1 := by
    refine (Finset.sum_eq_sum_iff_of_le hle).mp (le_antisymm (Finset.sum_le_sum hle) ?_)
    simp only [Finset.sum_const, Finset.card_range, smul_eq_mul, mul_one]
    omega
  have htrue := hone e (Finset.mem_range.mpr he)
  exact (hi.history.credited i e (by omega)).2.2.2.1

end Inv

/-! ## What a thread knows -/

section Knowledge

variable (kt : KeyType) (h : Ht)

/-- The calls that the assertions allow. -/
def Op.Ok : Op → Prop
  | .set a => (a.key ≠ doesNotExist ∧ a.key < 2 ^ 64) ∧ (a.new = doesNotExist ∨ Legal a.new)
  | .get _ _ => True

/-- An operation that does not begin at `ht->hti`. -/
def Op.iter : Op → Bool
  | .set _ => false
  | .get _ iter => iter

/-- An operation has come to table `i`: the tables before it have no room for its key, or
have given it away. -/
structure OpAt (o : Op) (i : ℕ) : Prop where
  ok : o.Ok
  lt : i < h.len
  passed : o.iter = false → ∀ m, h.hti ≤ m → m < i → (h.cell kt o.key m).Passed

/-- The caller of `hti_help_copy` has come to table `i`. -/
def WhoAt : Option Args → ℕ → Prop
  | some a, i => OpAt kt h (.set a) i
  | none, i => i < h.len

/-- Entry `e` of table `i` is that of a key. -/
def EntryOf (k i e : ℕ) : Prop := h.find kt k i = some e ∧ h.key i e ≠ doesNotExist

/-- Who copies entry `e` of table `i`. -/
def Source.At (i e : ℕ) : Source → Prop
  | .op o => OpAt kt h o i ∧ EntryOf kt h o.key i e
  | .help g => WhoAt kt h g.who i ∧ e + 1 + g.left ≤ 2 ^ (h.tables i).scale
    ∧ (g.total = 2 ^ (h.tables i).scale → AllDead h i)

/-- A copy that may be done. -/
structure CopyAt (c : Copy) : Prop where
  next : c.i + 1 < h.len
  entry : c.e < 2 ^ (h.tables c.i).scale
  hash : c.keyHash = 0 ∨ (h.key c.i c.e ≠ doesNotExist
    ∧ c.keyHash = kt.hash (kt.keyOf (h.key c.i c.e)))
  src : c.src.At kt h c.i c.e

/-- A copier has come to table `j`. -/
structure CopyTo (c : Copy) (j : ℕ) : Prop extends CopyAt kt h c where
  lt : c.i < j
  lt_len : j < h.len
  skips : ∀ m, c.i < m → m < j → h.key c.i c.e ≠ doesNotExist
    ∧ (h.cell kt (kt.keyOf (h.key c.i c.e)) m).Skipped

/-- A copier has come to table `j` with the value `u`. -/
structure Carries (c : Copy) (j u : ℕ) : Prop extends CopyTo kt h c j where
  legal : Legal u
  key_ne : h.key c.i c.e ≠ doesNotExist
  source : h.val c.i c.e = tagValue u ∨ (h.val c.i c.e = copiedValue
    ∧ Moved (h.cell kt (kt.keyOf (h.key c.i c.e))) (c.i + 1) h.len)

/-- Who looks a key up in table `j`. -/
def Finder.At : Finder → ℕ → Prop
  | .op o, j => OpAt kt h o j
  | .copy c u w, j => Carries kt h c j u ∧ w = h.key c.i c.e ∧ c.keyHash = kt.hash (kt.keyOf w)

/-- Who wants a table behind table `j`. -/
def Grower.At : Grower → ℕ → Prop
  | .set a, j => OpAt kt h (.set a) j ∧ h.find kt a.key j = none
  | .copy c, j => CopyTo kt h c j ∧ h.key c.i c.e ≠ doesNotExist
    ∧ h.find kt (kt.keyOf (h.key c.i c.e)) j = none

/-- What a thread knows about the tables. -/
def Knows : Pc → Prop
  | .returned _ | .count _ _ _ | .hti .iter => True
  | .hti (.cas a) => (Op.set a).Ok
  | .hti (.op o) => o.Ok
  | .check who i => WhoAt kt h who i
  | .unlinkNext a i | .unlink a i => OpAt kt h (.set a) i ∧ i + 1 < h.len ∧ AllDead h i
  | .iterNext i => i + 1 < h.len
  | .nextTable o i | .addCopied o i => OpAt kt h o (i + 1)
  | .helpTotal who i => WhoAt kt h who i ∧ i + 1 < h.len
  | .helpScan who i total =>
    WhoAt kt h who i ∧ i + 1 < h.len ∧ (total = 2 ^ (h.tables i).scale → AllDead h i)
  | .helpStore who i total x =>
    WhoAt kt h who i ∧ i + 1 < h.len ∧ (total = 2 ^ (h.tables i).scale → AllDead h i)
      ∧ entriesPerCopyChunk ∣ x
  | .helpAdd g i => WhoAt kt h g.who i ∧ i + 1 < h.len
  | .find f j e rest => f.At kt h j ∧ Finding kt h (f.key kt) j (e :: rest)
  | .growNext g j | .growHti g j | .growCount g j _ _ | .growStep g j _ _ | .growKeys g j _ =>
    g.At kt h j
  | .growCas g j scale => g.At kt h j ∧ minScale ≤ scale
  | .install a i e => OpAt kt h (.set a) i ∧ ∃ rest, Finding kt h a.key i (e :: rest)
  | .key a i e w =>
    OpAt kt h (.set a) i ∧ (∃ rest, Finding kt h a.key i (e :: rest))
      ∧ kt.Good w ∧ kt.Same (kt.keyOf w) a.key
  | .keyCount a i e | .val a i e => OpAt kt h (.set a) i ∧ EntryOf kt h a.key i e
  | .swap a i e v =>
    OpAt kt h (.set a) i ∧ EntryOf kt h a.key i e ∧ ¬ IsTagged v ∧ ¬ a.Keeps v
  | .getNext key iter i =>
    iter = false → OpAt kt h (.get key iter) i ∧ h.find kt key i = none
  | .getVal key iter i e => OpAt kt h (.get key iter) i ∧ EntryOf kt h key i e
  | .copyTo c j => CopyTo kt h c (j + 1)
  | .copyVal c j | .copyKill c j => CopyTo kt h c j
  | .copyTag c j => CopyTo kt h c j ∧ h.val c.i c.e ≠ doesNotExist
  | .copyKey c j u => Carries kt h c j u
  | .copyInstall c j u f w =>
    Carries kt h c j u ∧ w = h.key c.i c.e ∧ ∃ rest, Finding kt h (kt.keyOf w) j (f :: rest)
  | .copyKeyCount c j u f | .copyPut c j u f =>
    Carries kt h c j u ∧ EntryOf kt h (kt.keyOf (h.key c.i c.e)) j f
  | .copyStore c j _ =>
    (∃ u, Carries kt h c j u) ∧ Moved (h.cell kt (kt.keyOf (h.key c.i c.e))) (c.i + 1) h.len
  | .copySub c _ | .copyAdd c _ => CopyAt kt h c ∧ h.val c.i c.e = copiedValue

end Knowledge

/-- The running `hti_copy_entry`. -/
def Pc.copy : Pc → Option Copy
  | .find (.copy c _ _) _ _ _ | .growNext (.copy c) _ | .growHti (.copy c) _
  | .growCount (.copy c) _ _ _ | .growStep (.copy c) _ _ _ | .growKeys (.copy c) _ _
  | .growCas (.copy c) _ _ | .copyTo c _ | .copyVal c _ | .copyKill c _ | .copyTag c _
  | .copyKey c _ _ | .copyInstall c _ _ _ _ | .copyKeyCount c _ _ _ | .copyPut c _ _ _
  | .copyStore c _ _ | .copySub c _ | .copyAdd c _ => some c
  | _ => none

/-- How many of the copies so far have returned `TRUE`, and are not counted yet. -/
def Source.pend : Source → ℕ
  | .op _ => 0
  | .help g => g.num

/-- What the thread owes to table `i`. -/
def Pc.pend (pc : Pc) (i : ℕ) : ℕ :=
  match pc with
  | .addCopied _ j => if j = i then 1 else 0
  | .helpAdd g j => if j = i then g.num else 0
  | pc =>
    match pc.copy with
    | some c => if c.i = i then c.src.pend else 0
    | none => 0

/-- The entry whose value the thread has put into another table. -/
def Pc.wins : Pc → Option (ℕ × ℕ)
  | .copyStore c _ true | .copySub c _ | .copyAdd c _ => some (c.i, c.e)
  | _ => none

/-- What thread `t` knows, and its part in the history. -/
structure Loc (kt : KeyType) (t : ℕ) (s : Shared) (pc : Pc) : Prop where
  knows : Knows kt s.ht pc
  owed : ∀ i, s.owed.count (t, i) = pc.pend i
  won : ∀ i e, s.won i e = some t ↔ pc.wins = some (i, e)

/-- What the other threads leave alone. -/
structure Rely (kt : KeyType) (t : ℕ) (s s' : Shared) : Prop where
  grows : Grows kt s.ht s'.ht
  owed : ∀ i, s'.owed.count (t, i) = s.owed.count (t, i)
  won : ∀ i e, s'.won i e = some t ↔ s.won i e = some t

/-! ## Stability -/

section Stable

variable {kt : KeyType} {h h' : Ht} {i j e k u : ℕ} {o : Op} {c : Copy}

theorem OpAt.stable (hg : Grows kt h h') (ho : OpAt kt h o i) : OpAt kt h' o i :=
  ⟨ho.ok, ho.lt.trans_le hg.len, fun hf m hm hlt =>
    hg.passed (hlt.trans ho.lt) (ho.passed hf m (hg.hti.trans hm) hlt)⟩

theorem WhoAt.stable (hg : Grows kt h h') {who : Option Args} (hw : WhoAt kt h who i) :
    WhoAt kt h' who i := by
  cases who with
  | none => exact lt_of_lt_of_le hw hg.len
  | some a => exact OpAt.stable hg hw

theorem WhoAt.lt {who : Option Args} (hw : WhoAt kt h who i) : i < h.len := by
  cases who with
  | none => exact hw
  | some a => exact OpAt.lt hw

theorem EntryOf.stable (hg : Grows kt h h') (hi : i < h.len) (he : EntryOf kt h k i e) :
    EntryOf kt h' k i e := ⟨hg.find_some hi he.1 he.2, hg.key_ne hi he.2⟩

theorem AllDead.stable (hg : Grows kt h h') (hi : i < h.len) (hd : AllDead h i) : AllDead h' i :=
  hg.allDead hi hd

/-- Something that holds when a table is full is not lost. -/
theorem allDead_imp_stable (hg : Grows kt h h') (hi : i < h.len) {total : ℕ}
    (hd : total = 2 ^ (h.tables i).scale → AllDead h i) :
    total = 2 ^ (h'.tables i).scale → AllDead h' i := by
  rw [hg.scale i hi]
  exact fun ht => (hd ht).stable hg hi

theorem CopyAt.stable (hg : Grows kt h h') (hc : CopyAt kt h c) : CopyAt kt h' c := by
  have hlt : c.i < h.len := Nat.lt_of_succ_lt hc.next
  have hentry : c.e < 2 ^ (h'.tables c.i).scale := by
    rw [hg.scale c.i hlt]
    exact hc.entry
  have hhash : c.keyHash = 0 ∨ (h'.key c.i c.e ≠ doesNotExist
      ∧ c.keyHash = kt.hash (kt.keyOf (h'.key c.i c.e))) := by
    refine hc.hash.imp id fun ⟨hne, hh⟩ => ⟨hg.key_ne hlt hne, ?_⟩
    rw [hg.key c.i c.e hlt hne]
    exact hh
  refine ⟨hc.next.trans_le hg.len, hentry, hhash, ?_⟩
  have hs := hc.src
  cases hsrc : c.src with
  | op o =>
    rw [hsrc] at hs
    exact ⟨hs.1.stable hg, hs.2.stable hg hlt⟩
  | help g =>
    rw [hsrc] at hs
    refine ⟨hs.1.stable hg, ?_, allDead_imp_stable hg hlt hs.2.2⟩
    rw [hg.scale c.i hlt]
    exact hs.2.1

theorem CopyTo.stable (hg : Grows kt h h') (hc : CopyTo kt h c j) : CopyTo kt h' c j := by
  have hlt : c.i < h.len := Nat.lt_of_succ_lt hc.next
  refine ⟨hc.toCopyAt.stable hg, hc.lt, hc.lt_len.trans_le hg.len, fun m hm hmj => ?_⟩
  obtain ⟨hne, hs⟩ := hc.skips m hm hmj
  refine ⟨hg.key_ne hlt hne, ?_⟩
  rw [hg.key c.i c.e hlt hne]
  exact hg.skipped (hmj.trans hc.lt_len) hs

theorem Carries.stable (hg : Grows kt h h') (hc : Carries kt h c j u) : Carries kt h' c j u := by
  have hlt : c.i < h.len := Nat.lt_of_succ_lt hc.next
  refine ⟨hc.toCopyTo.stable hg, hc.legal, hg.key_ne hlt hc.key_ne, ?_⟩
  rw [hg.key c.i c.e hlt hc.key_ne]
  rcases hc.source with hv | ⟨hv, hm⟩
  · have ht : IsTagged (h.val c.i c.e) := by
      rw [hv]
      exact isTagged_tagValue u
    exact (hg.tagged c.i c.e hlt ht).imp (fun heq => heq.trans hv) id
  · refine Or.inr ⟨(hg.dead c.i c.e hlt ?_).trans hv, hg.moved _ _ hm⟩
    rw [hv]
    exact Or.inl rfl

theorem Finder.At.stable (hg : Grows kt h h') {f : Finder} (hf : f.At kt h j) :
    f.At kt h' j := by
  cases f with
  | op o => exact OpAt.stable hg hf
  | copy c u w =>
    obtain ⟨hc, hw, hh⟩ := hf
    refine ⟨hc.stable hg, ?_, hh⟩
    rw [hg.key c.i c.e (Nat.lt_of_succ_lt hc.next) hc.key_ne]
    exact hw

theorem Finder.At.lt {f : Finder} (hf : f.At kt h j) : j < h.len := by
  cases f with
  | op o => exact OpAt.lt hf
  | copy c u w => exact hf.1.lt_len

theorem Grower.At.stable (hg : Grows kt h h') {g : Grower} (ha : g.At kt h j) :
    g.At kt h' j := by
  cases g with
  | set a => exact ⟨ha.1.stable hg, hg.find_none ha.1.lt ha.2⟩
  | copy c =>
    obtain ⟨hc, hne, hf⟩ := ha
    have hlt : c.i < h.len := Nat.lt_of_succ_lt hc.next
    refine ⟨hc.stable hg, hg.key_ne hlt hne, ?_⟩
    rw [hg.key c.i c.e hlt hne]
    exact hg.find_none hc.lt_len hf

theorem Grower.At.lt {g : Grower} (ha : g.At kt h j) : j < h.len := by
  cases g with
  | set a => exact ha.1.lt
  | copy c => exact ha.1.lt_len

/-- **What a thread knows stays true.** -/
theorem Knows.stable (hg : Grows kt h h') {pc : Pc} (hk : Knows kt h pc) : Knows kt h' pc := by
  cases pc with
  | returned r => trivial
  | hti b =>
    cases b with
    | cas a => exact hk
    | op o => exact hk
    | iter => trivial
  | check who i => exact WhoAt.stable hg hk
  | unlinkNext a i => exact ⟨hk.1.stable hg, hk.2.1.trans_le hg.len, hk.2.2.stable hg hk.1.lt⟩
  | unlink a i => exact ⟨hk.1.stable hg, hk.2.1.trans_le hg.len, hk.2.2.stable hg hk.1.lt⟩
  | iterNext i => exact lt_of_lt_of_le hk hg.len
  | nextTable o i => exact OpAt.stable hg hk
  | helpTotal who i => exact ⟨hk.1.stable hg, hk.2.trans_le hg.len⟩
  | helpScan who i total =>
    exact ⟨hk.1.stable hg, hk.2.1.trans_le hg.len, allDead_imp_stable hg hk.1.lt hk.2.2⟩
  | helpStore who i total x =>
    exact ⟨hk.1.stable hg, hk.2.1.trans_le hg.len, allDead_imp_stable hg hk.1.lt hk.2.2.1, hk.2.2.2⟩
  | helpAdd g i => exact ⟨hk.1.stable hg, hk.2.trans_le hg.len⟩
  | find f j e rest => exact ⟨hk.1.stable hg, hg.finding hk.1.lt hk.2⟩
  | growNext g j => exact Grower.At.stable hg hk
  | growHti g j => exact Grower.At.stable hg hk
  | growCount g j m n => exact Grower.At.stable hg hk
  | growStep g j m n => exact Grower.At.stable hg hk
  | growKeys g j n => exact Grower.At.stable hg hk
  | growCas g j scale => exact ⟨hk.1.stable hg, hk.2⟩
  | install a i e =>
    obtain ⟨ho, rest, hf⟩ := hk
    exact ⟨ho.stable hg, rest, hg.finding ho.lt hf⟩
  | key a i e w =>
    obtain ⟨ho, ⟨rest, hf⟩, hw⟩ := hk
    exact ⟨ho.stable hg, ⟨rest, hg.finding ho.lt hf⟩, hw⟩
  | keyCount a i e => exact ⟨hk.1.stable hg, hk.2.stable hg hk.1.lt⟩
  | val a i e => exact ⟨hk.1.stable hg, hk.2.stable hg hk.1.lt⟩
  | swap a i e v => exact ⟨hk.1.stable hg, hk.2.1.stable hg hk.1.lt, hk.2.2⟩
  | count a i v => trivial
  | getNext key iter i =>
    exact fun hf => ⟨(hk hf).1.stable hg, hg.find_none (hk hf).1.lt (hk hf).2⟩
  | getVal key iter i e => exact ⟨hk.1.stable hg, hk.2.stable hg hk.1.lt⟩
  | addCopied o i => exact OpAt.stable hg hk
  | copyTo c j => exact CopyTo.stable hg hk
  | copyVal c j => exact CopyTo.stable hg hk
  | copyKill c j => exact CopyTo.stable hg hk
  | copyTag c j => exact ⟨hk.1.stable hg, hg.val_ne _ _ (Nat.lt_of_succ_lt hk.1.next) hk.2⟩
  | copyKey c j u => exact Carries.stable hg hk
  | copyInstall c j u f w =>
    obtain ⟨hc, hw, rest, hf⟩ := hk
    refine ⟨hc.stable hg, ?_, rest, hg.finding hc.lt_len hf⟩
    rw [hg.key _ _ (Nat.lt_of_succ_lt hc.next) hc.key_ne]
    exact hw
  | copyKeyCount c j u f =>
    refine ⟨hk.1.stable hg, ?_⟩
    rw [hg.key _ _ (Nat.lt_of_succ_lt hk.1.next) hk.1.key_ne]
    exact hk.2.stable hg hk.1.lt_len
  | copyPut c j u f =>
    refine ⟨hk.1.stable hg, ?_⟩
    rw [hg.key _ _ (Nat.lt_of_succ_lt hk.1.next) hk.1.key_ne]
    exact hk.2.stable hg hk.1.lt_len
  | copyStore c j did =>
    obtain ⟨⟨u, hc⟩, hm⟩ := hk
    refine ⟨⟨u, hc.stable hg⟩, ?_⟩
    rw [hg.key _ _ (Nat.lt_of_succ_lt hc.next) hc.key_ne]
    exact hg.moved _ _ hm
  | copySub c j =>
    refine ⟨hk.1.stable hg, (hg.dead _ _ (Nat.lt_of_succ_lt hk.1.next) ?_).trans hk.2⟩
    rw [hk.2]
    exact Or.inl rfl
  | copyAdd c j =>
    refine ⟨hk.1.stable hg, (hg.dead _ _ (Nat.lt_of_succ_lt hk.1.next) ?_).trans hk.2⟩
    rw [hk.2]
    exact Or.inl rfl

theorem Loc.stable {t : ℕ} {s s' : Shared} {pc : Pc} (hr : Rely kt t s s') (hl : Loc kt t s pc) :
    Loc kt t s' pc :=
  ⟨hl.knows.stable hr.grows, fun i => (hr.owed i).trans (hl.owed i),
    fun i e => (hr.won i e).trans (hl.won i e)⟩

end Stable

end HashtableSteps
