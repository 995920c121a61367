/-
# The hash table and its memory (`src/map/hashtable.c`, `src/runtime/rcu.c`)

The thread of `ht_cas` that unlinks a table gives it up with `hti_release`, and `hti_defer_free`
passes the keys that were not copied, the entries and the table to `rcu_defer_free`.  Here are the
hash table with `hti_release` and `hti_defer_free` and the scheme of `rcu.c` as one system.

* `Mem`, `Pc`, `step` — the hash table as a program of `Ssr.RcuClients`;
* `Uses` — the memory of a table and of the keys in it;
* `Left` — the memory of a table that no table behind it uses;
* `reclaims` — the program keeps to the rules of the scheme;
* `hashtable_freed_untouched` — whole runs.

The calls are `ht_cas`, `ht_get` and `ht_remove`; there are no iterators.  The pointer of a key is
below `2 ^ 48`; those of the tables and their entries stand behind.  `unlinker`, `maker` and
`handed` are history: the thread that unlinked a table, the thread that made a clone, and what was
passed to `rcu_defer_free`.
-/
import Ssr.HashtableReach
import Ssr.RcuOnce

open Interleaving Map Migration Hashtable

namespace HashtableReclaim

/-! ## The program -/

/-- The tables, the `ref_count` of each, and the history. -/
structure Mem where
  tables : HashtableSteps.Shared
  refCount : ℕ → ℕ
  unlinker : ℕ → ℕ
  maker : ℕ → ℕ
  handed : List ℕ

/-- The tables of the memory. -/
abbrev Mem.ht (s : Mem) : Ht := s.tables.ht

/-- The pointer to the entries of table `i`. -/
def tablePtr (i : ℕ) : ℕ := 2 ^ 48 + 2 * i

/-- The pointer to table `i`. -/
def htiPtr (i : ℕ) : ℕ := 2 ^ 48 + 2 * i + 1

/-- Where a thread stands: in a call, or in `hti_release` and `hti_defer_free` of table `i` with
the place where the call goes on. -/
inductive Pc where
  | call (pc : HashtableSteps.Pc)
  -- hti_release
  | refTest (next : HashtableSteps.Pc) (i : ℕ)
  | refSub (next : HashtableSteps.Pc) (i : ℕ)
  -- hti_defer_free
  | freeTest (next : HashtableSteps.Pc) (i : ℕ)
  | freeKey (next : HashtableSteps.Pc) (i e : ℕ)
  | freeVal (next : HashtableSteps.Pc) (i e w : ℕ)
  | deferKey (next : HashtableSteps.Pc) (i e p : ℕ)
  | deferTable (next : HashtableSteps.Pc) (i : ℕ)
  | deferHti (next : HashtableSteps.Pc) (i : ℕ)
  deriving DecidableEq, Repr

/-- The loop of `hti_defer_free`, at entry `e`. -/
def scan (h : Ht) (next : HashtableSteps.Pc) (i e : ℕ) : Pc :=
  if e < 2 ^ (h.tables i).scale then .freeKey next i e else .deferTable next i

/-- What a step of a call does to the history. -/
def Mem.after (t : ℕ) (s : Mem) (tables : HashtableSteps.Shared) : HashtableSteps.Pc → Mem
  | .unlink _ i =>
    if s.ht.hti = i then
      { s with tables := tables, unlinker := Function.update s.unlinker i t }
    else { s with tables := tables }
  | .install _ _ _ => { s with tables := tables, maker := Function.update s.maker s.ht.clones t }
  | _ => { s with tables := tables }

/-- Where a call goes on: the thread that has unlinked a table gives it up first. -/
def afterCall (s : Mem) (pc next : HashtableSteps.Pc) : Pc :=
  match pc with
  | .unlink _ i => if s.ht.hti = i then .refTest next i else .call next
  | _ => .call next

/-- Pass a pointer to `rcu_defer_free`. -/
def Mem.hand (s : Mem) (p : ℕ) : Mem := { s with handed := s.handed ++ [p] }

/-- One atomic step of thread `t`. -/
def step (kt : KeyType) (t : ℕ) (s : Mem) : Pc → HashtableSteps.Cmd → Option (Mem × Pc)
  | .call pc, cmd =>
    (HashtableSteps.step kt t s.tables pc cmd).map fun r =>
      (s.after t r.1 pc, afterCall s pc r.2)
  | .refTest next i, .resume => if 0 < s.refCount i then some (s, .refSub next i) else none
  | .refSub next i, .resume =>
    some ({ s with refCount := Function.update s.refCount i (s.refCount i - 1) },
      if s.refCount i - 1 = 0 then .freeTest next i else .call next)
  | .freeTest next i, .resume => if s.refCount i = 0 then some (s, scan s.ht next i 0) else none
  | .freeKey next i e, .resume => some (s, .freeVal next i e (s.ht.key i e))
  | .freeVal next i e w, .resume =>
    let v := s.ht.val i e
    if v = copiedValue then some (s, scan s.ht next i (e + 1))
    -- the assertion: copy not in progress
    else if IsTagged v ∧ v ≠ tagValue tombstone then none
    else
      match kt.keyPtr w with
      | some p => some (s, .deferKey next i e p)
      | none => some (s, scan s.ht next i (e + 1))
  | .deferKey next i e p, .resume => some (s.hand p, scan s.ht next i (e + 1))
  | .deferTable next i, .resume => some (s.hand (tablePtr i), .deferHti next i)
  | .deferHti next i, .resume => some (s.hand (htiPtr i), .call next)
  | _, _ => none

/-- The hash table: `hti_defer_free` passes what it frees to `rcu_defer_free`. -/
def client (kt : KeyType) : Rcu.Client Mem Pc HashtableSteps.Cmd where
  step := step kt
  idle
    | .call (.returned _) => true
    | _ => false
  defers
    | .deferKey _ _ _ p, .resume => some p
    | .deferTable _ i, .resume => some (tablePtr i)
    | .deferHti _ i, .resume => some (htiPtr i)
    | _, _ => none

/-- The hash table after `ht_alloc`. -/
def init : Conf Mem Pc where
  shared := ⟨HashtableSteps.init.shared, fun _ => 1, fun _ => 0, fun _ => 0, []⟩
  thread := fun _ => .call (.returned 0)

/-! ## Memory -/

/-- The memory `a` is that of table `i`, of its entries, or of a key in one of them. -/
def Uses (kt : KeyType) (h : Ht) (a i : ℕ) : Prop :=
  i < h.len ∧ (a = tablePtr i ∨ a = htiPtr i ∨ ∃ e, h.HasPtr kt a i e)

/-- The tables of a thread. -/
def Pc.tables : Pc → List ℕ
  | .call pc => pc.tables
  | .refTest next i | .refSub next i | .freeTest next i | .freeKey next i _ | .freeVal next i _ _
  | .deferKey next i _ _ | .deferTable next i | .deferHti next i => i :: next.tables

/-- The memory `a` is that of table `i` or its entries, or of a key whose value was removed
before it could be copied. -/
def Left (kt : KeyType) (h : Ht) (a i : ℕ) : Prop :=
  a = tablePtr i ∨ a = htiPtr i
    ∨ ∃ e < 2 ^ (h.tables i).scale, h.HasPtr kt a i e ∧ h.val i e = tagValue tombstone

/-- What a table that `ht->hti` has passed leaves. -/
def Gone (kt : KeyType) (s : Mem) (a : ℕ) : Prop := ∃ i < s.ht.hti, Left kt s.ht a i

/-- The thread stands behind the table that leaves the memory. -/
def Apart (kt : KeyType) (s : Mem) (a : ℕ) (pc : Pc) : Prop :=
  Gone kt s a → ∃ i < s.ht.hti, Left kt s.ht a i ∧ ∀ m ∈ pc.tables, i < m

section Memory

variable {kt : KeyType} {h h' : Ht} {s s' : Mem} {a p i j e w : ℕ}

/-- A key pointer has 48 bits. -/
theorem keyPtr_lt (hw : kt.keyPtr w = some p) : p < 2 ^ 48 := by
  cases kt with
  | integer f => cases hw
  | typed d =>
    simp only [KeyType.keyPtr, Option.ite_none_left_eq_some, Option.some.injEq] at hw
    rw [← hw.2]
    exact Nat.mod_lt _ (by decide)

/-- **No table behind uses what a table leaves.** -/
theorem Left.not_uses (hs : Shares kt h) (hl : Left kt h a i) (hij : i < j) : ¬ Uses kt h a j := by
  rintro ⟨hj, hu⟩
  rcases hl with rfl | rfl | ⟨e, -, he, hv⟩
  · rcases hu with heq | heq | ⟨f, hf⟩
    · unfold tablePtr at heq
      omega
    · unfold tablePtr htiPtr at heq
      omega
    · exact absurd (keyPtr_lt hf) (by unfold tablePtr; omega)
  · rcases hu with heq | heq | ⟨f, hf⟩
    · unfold tablePtr htiPtr at heq
      omega
    · unfold htiPtr at heq
      omega
    · exact absurd (keyPtr_lt hf) (by unfold htiPtr; omega)
  · rcases hu with rfl | rfl | ⟨f, hf⟩
    · exact absurd (keyPtr_lt he) (by unfold tablePtr; omega)
    · exact absurd (keyPtr_lt he) (by unfold htiPtr; omega)
    · exact (hs.given a i e j f hij hj he hf).2 hv

/-- What is left of a table is still used. -/
theorem Left.uses (hl : Left kt h a i) (hi : i < h.len) : Uses kt h a i := by
  refine ⟨hi, ?_⟩
  rcases hl with heq | heq | ⟨e, -, he, -⟩
  · exact .inl heq
  · exact .inr (.inl heq)
  · exact .inr (.inr ⟨e, he⟩)

/-- Memory is left by one table. -/
theorem Left.unique (hs : Shares kt h) (hi : i < h.len) (hj : j < h.len) (hl : Left kt h a i)
    (hl' : Left kt h a j) : i = j := by
  rcases lt_trichotomy i j with hlt | heq | hlt
  · exact absurd (hl'.uses hj) (hl.not_uses hs hlt)
  · exact heq
  · exact absurd (hl.uses hi) (hl'.not_uses hs hlt)

/-- The tables before `ht->hti` are settled. -/
theorem left_iff (hi : Hashtable.Inv kt h h.hti) (hg : Grows kt h h') (hlt : i < h.hti) :
    Left kt h' a i ↔ Left kt h a i := by
  have hlen : i < h.len := hlt.trans hi.base_lt
  unfold Left
  rw [hg.scale i hlen]
  refine or_congr_right (or_congr_right (exists_congr fun e => and_congr_right fun he => ?_))
  have hdead := hi.retired i e hlt he
  rw [hg.dead i e hlen hdead]
  refine and_congr_left fun hv => ?_
  -- the entry has had a value, and so it has its key
  have hkey : h.key i e ≠ doesNotExist := by
    refine hi.val_key i e hlen ?_ ?_ <;> rw [hv] <;> decide
  rw [Ht.HasPtr, Ht.HasPtr, hg.key i e hlen hkey]

/-- What is gone stays gone. -/
theorem Gone.grows (hi : Hashtable.Inv kt s.ht s.ht.hti) (hg : Grows kt s.ht s'.ht)
    (h : Gone kt s a) : Gone kt s' a := by
  obtain ⟨i, hlt, hl⟩ := h
  exact ⟨i, hlt.trans_le hg.hti, (left_iff hi hg hlt).mpr hl⟩

end Memory

/-! ## The invariant -/

/-- The pointer `p` is the `n`-th clone. -/
def IsClone : KeyType → ℕ → ℕ → Prop
  | .integer _, _, _ => False
  | .typed d, n, p => ∃ key, p = d.clone n key

/-- The first `M` clones are different pointers. -/
def Distinct (kt : KeyType) (M : ℕ) : Prop :=
  ∀ n m p, n < M → m < M → IsClone kt n p → IsClone kt m p → n = m

/-- A table has the pointer. -/
def Known (kt : KeyType) (h : Ht) (p : ℕ) : Prop := ∃ j < h.len, ∃ f, h.HasPtr kt p j f

/-- The shared part: at most `M` clones have been made. -/
structure Inv (kt : KeyType) (M : ℕ) (s : Mem) : Prop where
  tables : s.tables.Inv kt
  shares : Shares kt s.ht
  bound : s.ht.clones ≤ M
  made : ∀ p, Known kt s.ht p → ∃ n < s.ht.clones, IsClone kt n p
  one : ∀ i, s.ht.hti ≤ i → s.refCount i = 1
  gone : ∀ a ∈ s.handed, Gone kt s a
  nodup : s.handed.Nodup

/-- The clone that `hti_cas` is about to put into a table is its own. -/
def Owns (kt : KeyType) (t : ℕ) (s : Mem) (pc : HashtableSteps.Pc) : Prop :=
  ∀ w p, pc.clone = some w → kt.keyPtr w = some p →
    (∃ n < s.ht.clones, IsClone kt n p ∧ s.maker n = t) ∧ ¬ Known kt s.ht p

/-- Thread `t` is in a call. -/
structure Calls (kt : KeyType) (t : ℕ) (s : Mem) (pc : HashtableSteps.Pc) : Prop where
  loc : HashtableSteps.Loc kt t s.tables pc
  owns : Owns kt t s pc

/-- Thread `t` gives table `i` up; of what the table leaves it has handed over `P`. -/
structure Releases (kt : KeyType) (t : ℕ) (s : Mem) (next : HashtableSteps.Pc) (i : ℕ)
    (P : ℕ → Prop) : Prop where
  call : Calls kt t s next
  passed : i < s.ht.hti
  mine : s.unlinker i = t
  done : ∀ a ∈ s.handed, Left kt s.ht a i → P a

/-- The pointers of the entries before `e`. -/
def Before (kt : KeyType) (h : Ht) (i e a : ℕ) : Prop := ∃ x < e, h.HasPtr kt a i x

/-- What a thread knows. -/
def Loc (kt : KeyType) (t : ℕ) (s : Mem) : Pc → Prop
  | .call pc => Calls kt t s pc
  | .refTest next i | .refSub next i =>
    Releases kt t s next i (fun _ => False) ∧ s.refCount i = 1
  | .freeTest next i => Releases kt t s next i (fun _ => False) ∧ s.refCount i = 0
  | .freeKey next i e =>
    Releases kt t s next i (Before kt s.ht i e) ∧ e < 2 ^ (s.ht.tables i).scale
  | .freeVal next i e w =>
    Releases kt t s next i (Before kt s.ht i e) ∧ e < 2 ^ (s.ht.tables i).scale
      ∧ (s.ht.val i e ≠ copiedValue → w = s.ht.key i e)
  | .deferKey next i e p =>
    Releases kt t s next i (Before kt s.ht i e) ∧ e < 2 ^ (s.ht.tables i).scale
      ∧ s.ht.HasPtr kt p i e ∧ s.ht.val i e = tagValue tombstone
  | .deferTable next i => Releases kt t s next i (· < 2 ^ 48)
  | .deferHti next i => Releases kt t s next i (· ≠ htiPtr i)

/-- What the other threads leave alone. -/
structure Rely (kt : KeyType) (M u : ℕ) (s s' : Mem) : Prop where
  base : HashtableSteps.Rely kt u s.tables s'.tables
  clones : s.ht.clones ≤ s'.ht.clones
  bound : s.ht.clones ≤ M → s'.ht.clones ≤ M
  maker : ∀ n < s.ht.clones, s'.maker n = s.maker n
  known : ∀ p, Known kt s'.ht p →
    Known kt s.ht p ∨ ∃ n < s'.ht.clones, IsClone kt n p ∧ s'.maker n ≠ u
  unlinker : ∀ i < s.ht.hti, s'.unlinker i = s.unlinker i
  refCount : ∀ i < s.ht.hti, s.unlinker i = u → s'.refCount i = s.refCount i
  handed : ∀ i < s.ht.hti, s.unlinker i = u → ∀ a ∈ s'.handed, Left kt s'.ht a i → a ∈ s.handed

/-- The calls are `ht_cas`, `ht_get` and `ht_remove`, and no more than `M` clones are made. -/
def Ok (M : ℕ) (_t : ℕ) (s : Mem) (pc : Pc) (cmd : HashtableSteps.Cmd) : Prop :=
  (match cmd with
    | .iter | .next _ _ => False
    | _ => True)
  ∧ match pc with
    | .call (.install _ _ _) => s.ht.clones < M
    | _ => True

section Stable

variable {kt : KeyType} {M u i e : ℕ} {s s' : Mem} {pc : HashtableSteps.Pc} {P P' : ℕ → Prop}

/-- No step is no matter to anybody. -/
theorem Rely.refl (kt : KeyType) (M u : ℕ) (s : Mem) : Rely kt M u s s where
  base := HashtableSteps.Rely.refl kt u s.tables
  clones := le_rfl
  bound := id
  maker := fun _ _ => rfl
  known := fun _ h => .inl h
  unlinker := fun _ _ => rfl
  refCount := fun _ _ _ => rfl
  handed := fun _ _ _ _ ha _ => ha

/-- A key that a thread has allocated stays its own. -/
theorem Owns.stable (hd : Distinct kt M) (hb : s.ht.clones ≤ M) (hr : Rely kt M u s s')
    (h : Owns kt u s pc) : Owns kt u s' pc := by
  intro w p hpc hw
  obtain ⟨⟨n, hn, hclone, hmine⟩, hnot⟩ := h w p hpc hw
  refine ⟨⟨n, hn.trans_le hr.clones, hclone, (hr.maker n hn).trans hmine⟩, fun hk => ?_⟩
  rcases hr.known p hk with hk | ⟨m, hm, hclone', hne⟩
  · exact hnot hk
  · -- a clone of another thread is another pointer
    have hnm : n = m :=
      hd n m p (hn.trans_le hb) (hm.trans_le (hr.bound hb)) hclone hclone'
    rw [← hnm, hr.maker n hn] at hne
    exact hne hmine

/-- What a call rests on is stable. -/
theorem Calls.stable (hd : Distinct kt M) (hb : s.ht.clones ≤ M) (hr : Rely kt M u s s')
    (h : Calls kt u s pc) : Calls kt u s' pc :=
  ⟨h.loc.stable hr.base, h.owns.stable hd hb hr⟩

/-- So is what a release rests on. -/
theorem Releases.stable (hd : Distinct kt M) (hi : Inv kt M s) (hr : Rely kt M u s s')
    (h : Releases kt u s pc i P) (hP : ∀ a, P a → P' a) : Releases kt u s' pc i P' where
  call := h.call.stable hd hi.bound hr
  passed := h.passed.trans_le hr.base.grows.hti
  mine := (hr.unlinker i h.passed).trans h.mine
  done := by
    intro a ha hl
    have hold := (left_iff hi.tables.chain hr.base.grows h.passed).mp hl
    exact hP a (h.done a (hr.handed i h.passed h.mine a ha hl) hold)

/-- **What a thread rests on** is stable. -/
theorem Loc.stable (hd : Distinct kt M) (hi : Inv kt M s) (hr : Rely kt M u s s') {pc : Pc}
    (h : Loc kt u s pc) : Loc kt u s' pc := by
  have hg : Grows kt s.ht s'.ht := hr.base.grows
  have hlen : ∀ {i}, i < s.ht.hti → i < s.ht.len := fun hlt => hlt.trans hi.tables.chain.base_lt
  have hbefore : ∀ {i e}, i < s.ht.hti → ∀ a, Before kt s.ht i e a → Before kt s'.ht i e a := by
    rintro i e hlt a ⟨x, hx, hp⟩
    exact ⟨x, hx, hp.grows hg (hlen hlt)⟩
  have hscale : ∀ {i e}, i < s.ht.hti → e < 2 ^ (s.ht.tables i).scale →
      e < 2 ^ (s'.ht.tables i).scale := fun hlt he => by rwa [hg.scale _ (hlen hlt)]
  cases pc with
  | call pc => exact Calls.stable hd hi.bound hr h
  | refTest next i | refSub next i | freeTest next i =>
    exact ⟨h.1.stable hd hi hr fun _ => id, (hr.refCount i h.1.passed h.1.mine).trans h.2⟩
  | freeKey next i e =>
    exact ⟨h.1.stable hd hi hr (hbefore h.1.passed), hscale h.1.passed h.2⟩
  | freeVal next i e w =>
    obtain ⟨hrel, he, hw⟩ := h
    refine ⟨hrel.stable hd hi hr (hbefore hrel.passed), hscale hrel.passed he, fun hv => ?_⟩
    have hdead := hi.tables.chain.retired i e hrel.passed he
    rw [hg.dead i e (hlen hrel.passed) hdead] at hv
    have hkey : s.ht.key i e ≠ doesNotExist := by
      refine hi.tables.chain.val_key i e (hlen hrel.passed) (fun h0 => ?_) hv
      rw [h0] at hdead
      exact absurd hdead (by decide)
    exact (hw hv).trans (hg.key i e (hlen hrel.passed) hkey).symm
  | deferKey next i e p =>
    obtain ⟨hrel, he, hp, hv⟩ := h
    refine ⟨hrel.stable hd hi hr (hbefore hrel.passed), hscale hrel.passed he,
      hp.grows hg (hlen hrel.passed), ?_⟩
    rw [hg.dead i e (hlen hrel.passed) (.inr hv)]
    exact hv
  | deferTable next i | deferHti next i => exact Releases.stable hd hi hr h fun _ => id

end Stable

/-! ## Steps of the calls -/

section Calls

variable {kt : KeyType} {M t u : ℕ} {s : Mem} {tables : HashtableSteps.Shared}
  {pc next : HashtableSteps.Pc} {cmd : HashtableSteps.Cmd}

/-- The tables after a step of a call. -/
@[simp] theorem after_tables (s : Mem) (pc : HashtableSteps.Pc) :
    (s.after t tables pc).tables = tables := by
  cases pc <;> simp only [Mem.after]
  split_ifs <;> rfl

/-- The chain after it. -/
@[simp] theorem after_ht (s : Mem) (pc : HashtableSteps.Pc) :
    (s.after t tables pc).ht = tables.ht :=
  congrArg HashtableSteps.Shared.ht (after_tables s pc)

/-- The references are as they were. -/
@[simp] theorem after_refCount (s : Mem) (pc : HashtableSteps.Pc) :
    (s.after t tables pc).refCount = s.refCount := by
  cases pc <;> simp only [Mem.after]
  split_ifs <;> rfl

/-- Nothing is handed over. -/
@[simp] theorem after_handed (s : Mem) (pc : HashtableSteps.Pc) :
    (s.after t tables pc).handed = s.handed := by
  cases pc <;> simp only [Mem.after]
  split_ifs <;> rfl

/-- The clones of before were made by who made them. -/
theorem after_maker (s : Mem) (pc : HashtableSteps.Pc) {n : ℕ} (hn : n < s.ht.clones) :
    (s.after t tables pc).maker n = s.maker n := by
  cases pc <;> simp only [Mem.after]
  · split_ifs <;> rfl
  · exact Function.update_of_ne hn.ne _ _

/-- The tables that were unlinked before were unlinked by who unlinked them. -/
theorem after_unlinker (s : Mem) (pc : HashtableSteps.Pc) {i : ℕ} (hi : i < s.ht.hti) :
    (s.after t tables pc).unlinker i = s.unlinker i := by
  cases pc <;> simp only [Mem.after]
  split_ifs with heq
  · exact Function.update_of_ne (heq ▸ hi).ne _ _
  · rfl

/-- The pointer in a new key word is a clone. -/
theorem keyPtr_newKey (hkt : kt.Lawful) {n key keyHash p : ℕ}
    (h : kt.keyPtr (kt.newKey n key keyHash) = some p) : IsClone kt n p := by
  cases kt with
  | integer f => cases h
  | typed d =>
    simp only [KeyType.keyPtr, Option.ite_none_left_eq_some, Option.some.injEq] at h
    refine ⟨key, h.2.symm.trans ?_⟩
    have hlt := Datatype.Lawful.clone_lt hkt n key
    change (keyHash / 2 ^ 16 * 2 ^ 48 + d.clone n key) % 2 ^ 48 = d.clone n key
    omega

/-- A pointer that comes into a table is the thread's own clone. -/
theorem known_step (h : Calls kt t s pc)
    (hstep : HashtableSteps.step kt t s.tables pc cmd = some (tables, next)) {p : ℕ}
    (hp : Known kt tables.ht p) :
    Known kt s.ht p ∨ ∃ n < s.ht.clones, IsClone kt n p ∧ s.maker n = t := by
  obtain ⟨j, hj, f, hf⟩ := hp
  rcases HashtableSteps.key_step hstep with hsame | ⟨a, i, e, w, rfl, -, heq⟩ | ⟨c, i, v, e, w, rfl, -, heq⟩
  · obtain ⟨hjl, heq⟩ := hsame j f hj hf.key_ne
    rw [Ht.HasPtr, heq] at hf
    exact .inl ⟨j, hjl, f, hf⟩
  · rw [heq] at hj hf
    by_cases hie : j = i ∧ f = e
    · obtain ⟨rfl, rfl⟩ := hie
      rw [Ht.HasPtr, Ht.setKey_key_self] at hf
      exact .inr (h.owns w p rfl hf).1
    · rw [Ht.HasPtr, Ht.setKey_key_of_ne w hie] at hf
      exact .inl ⟨j, hj, f, hf⟩
  · rw [heq] at hj hf
    by_cases hie : j = i ∧ f = e
    · obtain ⟨rfl, rfl⟩ := hie
      obtain ⟨hc, hw, -⟩ := h.loc.knows
      rw [Ht.HasPtr, Ht.setKey_key_self, hw] at hf
      exact .inl ⟨c.i, Nat.lt_of_succ_lt hc.next, c.e, hf⟩
    · rw [Ht.HasPtr, Ht.setKey_key_of_ne w hie] at hf
      exact .inl ⟨j, hj, f, hf⟩

/-- The thread's clone after a step. -/
theorem owns_step (hkt : kt.Lawful) (hd : Distinct kt M) (hi : Inv kt M s)
    (hok : Ok M t s (.call pc) cmd)
    (hstep : HashtableSteps.step kt t s.tables pc cmd = some (tables, next)) :
    Owns kt t (s.after t tables pc) next := by
  intro w p hw hp
  rcases HashtableSteps.clone_step hstep with ⟨-, hnone⟩ | ⟨a, i, e, rfl, rfl, rfl⟩
  · rw [hnone] at hw
    cases hw
  · cases hw
    have hclone := keyPtr_newKey hkt hp
    refine ⟨⟨s.ht.clones, Nat.lt_succ_self _, hclone, Function.update_self _ _ _⟩, fun hk => ?_⟩
    -- what the tables have are clones of before
    obtain ⟨n, hn, hclone'⟩ := hi.made p hk
    exact hn.ne (hd n s.ht.clones p (hn.trans hok.2) hok.2 hclone' hclone)

/-- **A step of a call** keeps the invariant. -/
theorem inv_call (hkt : kt.Lawful) (hi : Inv kt M s) (hl : Calls kt t s pc)
    (hok : Ok M t s (.call pc) cmd)
    (hstep : HashtableSteps.step kt t s.tables pc cmd = some (tables, next)) :
    Inv kt M (s.after t tables pc) := by
  have hbase := HashtableSteps.step_ok hkt hi.tables hl.loc hstep
  have hg : Grows kt s.ht tables.ht := (hbase.rely (t + 1) (Nat.succ_ne_self t)).grows
  have hclones : s.ht.clones ≤ tables.ht.clones ∧ tables.ht.clones ≤ M := by
    rcases HashtableSteps.clone_step hstep with ⟨heq, -⟩ | ⟨a, i, e, rfl, rfl, rfl⟩
    · rw [heq]
      exact ⟨le_rfl, hi.bound⟩
    · exact ⟨Nat.le_succ _, hok.2⟩
  have hgone : ∀ a ∈ s.handed, Gone kt (s.after t tables pc) a := fun a ha => by
    have hga := hi.gone a ha
    refine hga.grows hi.tables.chain ?_
    rw [after_ht]
    exact hg
  constructor
  · rw [after_tables]
    exact hbase.inv
  · rw [after_ht]
    exact HashtableSteps.shares_step hkt hi.tables hl.loc hi.shares
      (fun w p j f hw hp hj hf => (hl.owns w p hw hp).2 ⟨j, hj, f, hf⟩) hstep
  · rw [after_ht]
    exact hclones.2
  · rw [after_ht]
    intro p hp
    rcases known_step hl hstep hp with hk | ⟨n, hn, hclone, -⟩
    · obtain ⟨n, hn, hclone⟩ := hi.made p hk
      exact ⟨n, hn.trans_le hclones.1, hclone⟩
    · exact ⟨n, hn.trans_le hclones.1, hclone⟩
  · rw [after_ht, after_refCount]
    exact fun i hle => hi.one i (hg.hti.trans hle)
  · rw [after_handed]
    exact hgone
  · rw [after_handed]
    exact hi.nodup

/-- It keeps what the others rely on. -/
theorem rely_call (hkt : kt.Lawful) (hi : Inv kt M s) (hl : Calls kt t s pc)
    (hok : Ok M t s (.call pc) cmd)
    (hstep : HashtableSteps.step kt t s.tables pc cmd = some (tables, next)) (hu : u ≠ t) :
    Rely kt M u s (s.after t tables pc) := by
  have hinv := inv_call hkt hi hl hok hstep
  have hbase := (HashtableSteps.step_ok hkt hi.tables hl.loc hstep).rely u hu
  have hclones : s.ht.clones ≤ tables.ht.clones := by
    rcases HashtableSteps.clone_step hstep with ⟨heq, -⟩ | ⟨a, i, e, rfl, rfl, rfl⟩
    · exact heq.ge
    · exact Nat.le_succ _
  constructor
  · rw [after_tables]
    exact hbase
  · rw [after_ht]
    exact hclones
  · exact fun _ => hinv.bound
  · exact fun n hn => after_maker s pc hn
  · intro p hp
    rw [after_ht] at hp
    rcases known_step hl hstep hp with hk | ⟨n, hn, hclone, hmine⟩
    · exact .inl hk
    · refine .inr ⟨n, ?_, hclone, ?_⟩
      · rw [after_ht]
        exact hn.trans_le hclones
      · rw [after_maker s pc hn, hmine]
        exact hu.symm
  · exact fun i hlt => after_unlinker s pc hlt
  · intro i _ _
    rw [after_refCount]
  · intro i _ _ a ha _
    rwa [after_handed] at ha

/-- **A step of a call**; the thread that has unlinked a table gives it up. -/
theorem loc_call (hkt : kt.Lawful) (hd : Distinct kt M) (hi : Inv kt M s) (hl : Calls kt t s pc)
    (hok : Ok M t s (.call pc) cmd)
    (hstep : HashtableSteps.step kt t s.tables pc cmd = some (tables, next)) :
    Loc kt t (s.after t tables pc) (afterCall s pc next) := by
  have hbase := HashtableSteps.step_ok hkt hi.tables hl.loc hstep
  have hcalls : Calls kt t (s.after t tables pc) next := by
    refine ⟨?_, owns_step hkt hd hi hok hstep⟩
    rw [after_tables]
    exact hbase.loc
  cases pc with
  | unlink a i =>
    simp only [afterCall]
    split_ifs with heq
    · have hinv := inv_call hkt hi hl hok hstep
      have hg : Grows kt s.ht (s.after t tables (.unlink a i)).ht := by
        rw [after_ht]
        exact (hbase.rely (t + 1) (Nat.succ_ne_self t)).grows
      have hlt : i < (s.after t tables (.unlink a i)).ht.hti := by
        rw [after_ht]
        cases cmd <;> cases hstep
        rw [if_pos heq]
        exact Nat.lt_succ_self i
      refine ⟨⟨hcalls, hlt, ?_, fun b hb hleft => ?_⟩, ?_⟩
      · simp only [Mem.after, if_pos heq, Function.update_self]
      · -- what was handed over is of a table before
        rw [after_handed] at hb
        obtain ⟨j, hj, hleft'⟩ := hi.gone b hb
        have hleft'' := (left_iff hi.tables.chain hg hj).mpr hleft'
        have hbound := hinv.tables.chain.base_lt
        have hji : j = i := hleft''.unique hinv.shares ((hj.trans_le hg.hti).trans hbound)
          (hlt.trans hbound) hleft
        omega
      · rw [after_refCount]
        exact hi.one i heq.le
    · exact hcalls
  | _ => exact hcalls

end Calls

/-! ## Steps of `hti_release` and `hti_defer_free` -/

section Release

variable {kt : KeyType} {M t u i e p : ℕ} {s s' : Mem} {pc pc' : Pc} {next : HashtableSteps.Pc}
  {cmd : HashtableSteps.Cmd} {P : ℕ → Prop}

/-- A weaker form. -/
theorem Releases.mono {P' : ℕ → Prop} (h : Releases kt t s next i P) (hP : ∀ a, P a → P' a) :
    Releases kt t s next i P' :=
  ⟨h.call, h.passed, h.mine, fun a ha hl => hP a (h.done a ha hl)⟩

/-- The head of the loop of `hti_defer_free`. -/
theorem scan_loc (h : Releases kt t s next i (Before kt s.ht i e)) :
    Loc kt t s (scan s.ht next i e) := by
  unfold scan
  split_ifs with he
  · exact ⟨h, he⟩
  · refine h.mono fun a hb => ?_
    obtain ⟨x, -, hp⟩ := hb
    exact keyPtr_lt hp

/-- What is before an entry is before the next one. -/
theorem before_succ {h : Ht} {a : ℕ} (hb : Before kt h i e a) : Before kt h i (e + 1) a := by
  obtain ⟨x, hx, hp⟩ := hb
  exact ⟨x, Nat.lt_succ_of_lt hx, hp⟩

/-- The thread passes a pointer of the table that it gives up, for the first time. -/
theorem hand_ok (P' : ℕ → Prop) (hi : Inv kt M s) (h : Releases kt t s next i P) (hleft : Left kt s.ht p i)
    (hnot : ¬ P p) (hP : ∀ a, P a → P' a) (hp : P' p) :
    Inv kt M (s.hand p) ∧ Releases kt t (s.hand p) next i P'
      ∧ ∀ u, u ≠ t → Rely kt M u s (s.hand p) := by
  have hlen : ∀ {j}, j < s.ht.hti → j < s.ht.len := fun hj => hj.trans hi.tables.chain.base_lt
  have hmem : ∀ a, a ∈ (s.hand p).handed → a ∈ s.handed ∨ a = p := fun a ha =>
    (List.mem_append.mp ha).imp id List.mem_singleton.mp
  have hinv : Inv kt M (s.hand p) := by
    refine ⟨hi.tables, hi.shares, hi.bound, hi.made, hi.one, fun a ha => ?_, ?_⟩
    · rcases hmem a ha with ha | rfl
      · exact hi.gone a ha
      · exact ⟨i, h.passed, hleft⟩
    · refine List.Nodup.append hi.nodup (List.nodup_singleton p) ?_
      rw [List.disjoint_singleton]
      exact fun ha => hnot (h.done p ha hleft)
  refine ⟨hinv, ⟨⟨h.call.loc, h.call.owns⟩, h.passed, h.mine, fun a ha hl => ?_⟩, fun u hu => ?_⟩
  · rcases hmem a ha with ha | rfl
    · exact hP a (h.done a ha hl)
    · exact hp
  · refine { Rely.refl kt M u s with handed := fun j hj hju a ha hl => ?_ }
    rcases hmem a ha with ha | rfl
    · exact ha
    · -- the pointer is of a table that thread `t` has unlinked
      have hij : i = j := hleft.unique hi.shares (hlen h.passed) (hlen hj) hl
      rw [← hij, h.mine] at hju
      exact absurd hju.symm hu

/-- **A step of a release.** -/
theorem release_step (hkt : kt.Lawful) (hi : Inv kt M s) (hl : Loc kt t s pc)
    (hpc : ∀ x, pc ≠ .call x) (hstep : step kt t s pc cmd = some (s', pc')) :
    Inv kt M s' ∧ Loc kt t s' pc' ∧ ∀ u, u ≠ t → Rely kt M u s s' := by
  cases pc with
  | call x => exact absurd rfl (hpc x)
  | refTest next i =>
    cases cmd <;> simp only [step, reduceCtorEq, Option.ite_none_right_eq_some] at hstep
    obtain ⟨-, heq⟩ := hstep
    cases heq
    exact ⟨hi, hl, fun u _ => Rely.refl kt M u s⟩
  | refSub next i =>
    cases cmd <;> cases hstep
    obtain ⟨hrel, hone⟩ := hl
    rw [hone]
    refine ⟨⟨hi.tables, hi.shares, hi.bound, hi.made, fun j hj => ?_, hi.gone, hi.nodup⟩, ?_,
      fun u hu => { Rely.refl kt M u s with refCount := fun j hj hju => ?_ }⟩
    · exact (Function.update_of_ne (hrel.passed.trans_le hj).ne' _ _).trans (hi.one j hj)
    · exact ⟨⟨⟨hrel.call.loc, hrel.call.owns⟩, hrel.passed, hrel.mine, hrel.done⟩,
        Function.update_self _ _ _⟩
    · refine Function.update_of_ne ?_ _ _
      rintro rfl
      exact hu (hju.symm.trans hrel.mine)
  | freeTest next i =>
    cases cmd <;> simp only [step, reduceCtorEq, Option.ite_none_right_eq_some] at hstep
    obtain ⟨-, heq⟩ := hstep
    cases heq
    exact ⟨hi, scan_loc (hl.1.mono fun a => False.elim), fun u _ => Rely.refl kt M u s⟩
  | freeKey next i e =>
    cases cmd <;> cases hstep
    exact ⟨hi, ⟨hl.1, hl.2, fun _ => rfl⟩, fun u _ => Rely.refl kt M u s⟩
  | freeVal next i e w =>
    obtain ⟨hrel, he, hw⟩ := hl
    have hskip : Loc kt t s (scan s.ht next i (e + 1)) :=
      scan_loc (hrel.mono fun a => before_succ)
    cases cmd <;> simp only [step, reduceCtorEq] at hstep
    split_ifs at hstep with hv
    · cases hstep
      exact ⟨hi, hskip, fun u _ => Rely.refl kt M u s⟩
    · cases hp : kt.keyPtr w with
      | none =>
        rw [hp] at hstep
        cases hstep
        exact ⟨hi, hskip, fun u _ => Rely.refl kt M u s⟩
      | some p =>
        rw [hp] at hstep
        cases hstep
        rw [hw hv] at hp
        have hdead := hi.tables.chain.retired i e hrel.passed he
        exact ⟨hi, ⟨hrel, he, hp, hdead.resolve_left hv⟩, fun u _ => Rely.refl kt M u s⟩
  | deferKey next i e p =>
    cases cmd <;> cases hstep
    obtain ⟨hrel, he, hp, hv⟩ := hl
    have hlen : i < s.ht.len := hrel.passed.trans hi.tables.chain.base_lt
    have hnot : ¬ Before kt s.ht i e p := by
      rintro ⟨x, hx, hpx⟩
      exact hx.ne (hpx.unique hkt hi.tables.chain hlen hp)
    obtain ⟨hinv, hrel', hrely⟩ := hand_ok (Before kt s.ht i (e + 1)) hi hrel
      (.inr (.inr ⟨e, he, hp, hv⟩)) hnot (fun a => before_succ) ⟨e, Nat.lt_succ_self e, hp⟩
    exact ⟨hinv, scan_loc hrel', hrely⟩
  | deferTable next i =>
    cases cmd <;> cases hstep
    refine hand_ok (· ≠ htiPtr i) hi hl (.inl rfl) ?_ (fun a ha => ?_) ?_
    · exact Nat.not_lt.mpr (Nat.le_add_right _ _)
    · unfold htiPtr
      omega
    · unfold tablePtr htiPtr
      omega
  | deferHti next i =>
    cases cmd <;> cases hstep
    obtain ⟨hinv, hrel, hrely⟩ := hand_ok (fun _ => True) hi hl (.inr (.inl rfl))
      (fun h => h rfl) (fun _ _ => trivial) trivial
    exact ⟨hinv, hrel.call, hrely⟩

/-- **Every thread keeps what the others rely on.** -/
theorem relyGuarantee (hkt : kt.Lawful) (hd : Distinct kt M) :
    RelyGuarantee (step kt) (Ok M) (Inv kt M) (Loc kt) (Rely kt M) where
  guarantee := by
    intro t s pc cmd s' pc' hi hl hok hstep
    by_cases hpc : ∃ x, pc = .call x
    · obtain ⟨x, rfl⟩ := hpc
      obtain ⟨⟨tables, next⟩, hcall, heq⟩ := Option.map_eq_some_iff.mp hstep
      cases heq
      exact ⟨inv_call hkt hi hl hok hcall, loc_call hkt hd hi hl hok hcall,
        fun u hu => rely_call hkt hi hl hok hcall hu⟩
    · exact release_step hkt hi hl (fun x heq => hpc ⟨x, heq⟩) hstep
  stable := fun _ _ _ _ hi hr hl => hl.stable hd hi hr

end Release

/-! ## The rules of the scheme -/

section Rules

variable {kt : KeyType} {M t a : ℕ} {s s' : Mem} {pc pc' : Pc} {cmd : HashtableSteps.Cmd}

/-- A release uses its table until the end. -/
@[simp] theorem scan_tables (h : Ht) (next : HashtableSteps.Pc) (i e : ℕ) :
    (scan h next i e).tables = i :: next.tables := by
  unfold scan
  split_ifs <;> rfl

/-- A step leads to no table before those of the thread, other than `ht->hti`. -/
theorem tables_of_step (hok : Ok M t s pc cmd) (hstep : step kt t s pc cmd = some (s', pc')) {m : ℕ}
    (hm : m ∈ pc'.tables) : (∃ i ∈ pc.tables, i ≤ m) ∨ s.ht.hti ≤ m := by
  have hstay : m ∈ pc.tables → (∃ i ∈ pc.tables, i ≤ m) ∨ s.ht.hti ≤ m :=
    fun h => .inl ⟨m, h, le_rfl⟩
  cases pc with
  | call x =>
    obtain ⟨⟨tables, next⟩, hcall, heq⟩ := Option.map_eq_some_iff.mp hstep
    cases heq
    by_cases hc : cmd = .resume
    · subst hc
      have hnext : m ∈ next.tables := by
        cases x with
        | unlink a i =>
          cases hcall
          rw [HashtableSteps.start_tables, List.mem_singleton]
          simp only [afterCall] at hm
          split_ifs at hm
          · simpa [Pc.tables] using hm
          · simpa [Pc.tables] using hm
        | _ => exact hm
      exact HashtableSteps.tables_step hcall hnext
    · -- a call begins, and holds no table yet
      have hinv : (HashtableSteps.invoke x cmd).map (fun pc' => (s.tables, pc')) = some (tables, next) := by
        rw [← hcall]
        cases cmd <;> first | rfl | exact absurd rfl hc
      obtain ⟨y, hy, heq⟩ := Option.map_eq_some_iff.mp hinv
      cases heq
      have hnone : next.tables = [] := by
        refine HashtableSteps.invoke_tables (fun key i hk => ?_) hy
        rw [hk] at hok
        exact hok.1
      have hcalled : afterCall s x next = .call next := by
        cases x with
        | unlink a i => cases cmd <;> cases hy
        | _ => rfl
      rw [hcalled] at hm
      change m ∈ next.tables at hm
      rw [hnone] at hm
      cases hm
  | refTest next i =>
    cases cmd <;> simp only [step, reduceCtorEq, Option.ite_none_right_eq_some] at hstep
    obtain ⟨-, heq⟩ := hstep
    cases heq
    exact hstay hm
  | refSub next i =>
    cases cmd <;> cases hstep
    split_ifs at hm
    · exact hstay hm
    · exact hstay (List.mem_cons_of_mem i hm)
  | freeTest next i =>
    cases cmd <;> simp only [step, reduceCtorEq, Option.ite_none_right_eq_some] at hstep
    obtain ⟨-, heq⟩ := hstep
    cases heq
    rw [scan_tables] at hm
    exact hstay hm
  | freeKey next i e =>
    cases cmd <;> cases hstep
    exact hstay hm
  | freeVal next i e w =>
    cases cmd <;> simp only [step, reduceCtorEq] at hstep
    split_ifs at hstep
    · cases hstep
      rw [scan_tables] at hm
      exact hstay hm
    · split at hstep <;> cases hstep
      · exact hstay hm
      · rw [scan_tables] at hm
        exact hstay hm
  | deferKey next i e p =>
    cases cmd <;> cases hstep
    rw [scan_tables] at hm
    exact hstay hm
  | deferTable next i =>
    cases cmd <;> cases hstep
    exact hstay hm
  | deferHti next i =>
    cases cmd <;> cases hstep
    exact hstay (List.mem_cons_of_mem i hm)

/-- What a step passes to `rcu_defer_free` is left by a table that `ht->hti` has passed. -/
theorem gone_of_defers (hl : Loc kt t s pc) (hstep : step kt t s pc cmd = some (s', pc'))
    (hd : (client kt).defers pc cmd = some a) : Gone kt s' a := by
  cases pc with
  | deferKey next i e p =>
    cases cmd <;> cases hd
    cases hstep
    obtain ⟨hrel, he, hp, hv⟩ := hl
    exact ⟨i, hrel.passed, .inr (.inr ⟨e, he, hp, hv⟩)⟩
  | deferTable next i =>
    cases cmd <;> cases hd
    cases hstep
    exact ⟨i, hl.passed, .inl rfl⟩
  | deferHti next i =>
    cases cmd <;> cases hd
    cases hstep
    exact ⟨i, hl.passed, .inr (.inl rfl)⟩
  | _ => cases cmd <;> cases hd

/-- What is left stays left, and the threads that stand behind stay there. -/
theorem Apart.grows (hi : Inv kt M s) (hg : Grows kt s.ht s'.ht) (hgone : Gone kt s a)
    (h : Apart kt s a pc) (hm : ∀ b < s.ht.hti, (∀ m ∈ pc.tables, b < m) → ∀ m ∈ pc'.tables, b < m) :
    Apart kt s' a pc' := by
  intro _
  obtain ⟨i, hlt, hleft, hbehind⟩ := h hgone
  exact ⟨i, hlt.trans_le hg.hti, (left_iff hi.tables.chain hg hlt).mpr hleft, hm i hlt hbehind⟩

/-- **The table is a client of the ring**: what it hands over is gone. -/
theorem reclaims (hkt : kt.Lawful) (hd : Distinct kt M) :
    (client kt).Reclaims (Ok M) (Inv kt M) (Loc kt) (Rely kt M) (Gone kt) (Apart kt) where
  base := relyGuarantee hkt hd
  refl := fun u s => Rely.refl kt M u s
  hands := fun _ _ _ _ _ _ _ _ hl _ hstep hdef => gone_of_defers hl hstep hdef
  keeps := by
    intro t s pc cmd s' pc' a hi hl hok hstep hgone
    obtain ⟨-, -, hrely⟩ := (relyGuarantee hkt hd).guarantee t s pc cmd s' pc' hi hl hok hstep
    exact hgone.grows hi.tables.chain (hrely (t + 1) (Nat.succ_ne_self t)).base.grows
  idle := by
    intro s a pc hidle hgone
    obtain ⟨i, hlt, hleft⟩ := hgone
    refine ⟨i, hlt, hleft, fun m hm => ?_⟩
    cases pc with
    | call x =>
      cases x with
      | returned r => cases hm
      | _ => cases hidle
    | _ => cases hidle
  step := by
    intro t s pc cmd s' pc' a hi hl hok hstep hgone hap
    obtain ⟨-, -, hrely⟩ := (relyGuarantee hkt hd).guarantee t s pc cmd s' pc' hi hl hok hstep
    refine hap.grows hi (hrely (t + 1) (Nat.succ_ne_self t)).base.grows hgone
      fun b hb hbehind m hm => ?_
    rcases tables_of_step hok hstep hm with ⟨i, hmem, hle⟩ | hle
    · exact (hbehind i hmem).trans_le hle
    · exact hb.trans_le hle
  stable := fun _ _ _ _ _ hi _ hr hgone hap =>
    hap.grows hi hr.base.grows hgone fun _ _ hbehind => hbehind

end Rules

/-! ## Runs -/

section Runs

variable {kt : KeyType} {M N t a : ℕ} {s s' : Mem} {pc pc' : Pc} {cmd : HashtableSteps.Cmd}
  {c c' : Conf (Mem × Rcu.Ring) (Pc × Rcu.Pc)} {es : List (ℕ × Rcu.Input HashtableSteps.Cmd)}

/-- The calls are `ht_cas`, `ht_get` and `ht_remove`. -/
def Plain (e : ℕ × Rcu.Input HashtableSteps.Cmd) : Prop :=
  match e.2 with
  | .work .iter | .work (.next _ _) => False
  | _ => True

instance (e : ℕ × Rcu.Input HashtableSteps.Cmd) : Decidable (Plain e) :=
  match e with
  | (_, .work .iter) | (_, .work (.next _ _)) => inferInstanceAs (Decidable False)
  | (_, .work (.cas _)) | (_, .work (.get _)) | (_, .work (.remove _)) | (_, .work .resume)
  | (_, .update) | (_, .resume) => inferInstanceAs (Decidable True)

/-- No step takes a clone back, and `hti_cas` makes one. -/
theorem clones_of_step (hstep : step kt t s pc cmd = some (s', pc')) :
    s.ht.clones ≤ s'.ht.clones
      ∧ ∀ a i e, pc = .call (.install a i e) → s.ht.clones < s'.ht.clones := by
  cases pc with
  | call x =>
    obtain ⟨⟨tables, next⟩, hcall, heq⟩ := Option.map_eq_some_iff.mp hstep
    cases heq
    rw [after_ht]
    rcases HashtableSteps.clone_step hcall with ⟨heq, -⟩ | ⟨a, i, e, rfl, rfl, rfl⟩
    · refine ⟨heq.ge, fun a i e hx => ?_⟩
      cases hx
      cases cmd <;> cases hcall
      exact absurd heq (Nat.succ_ne_self _)
    · exact ⟨Nat.le_succ _, fun _ _ _ _ => Nat.lt_succ_self _⟩
  | refTest | freeTest =>
    cases cmd <;> simp only [step, reduceCtorEq, Option.ite_none_right_eq_some] at hstep
    obtain ⟨-, heq⟩ := hstep
    cases heq
    exact ⟨le_rfl, fun a i e h => Pc.noConfusion h⟩
  | freeVal next i e w =>
    cases cmd <;> simp only [step, reduceCtorEq] at hstep
    split_ifs at hstep
    · cases hstep
      exact ⟨le_rfl, fun a i e h => Pc.noConfusion h⟩
    · split at hstep <;> cases hstep <;> exact ⟨le_rfl, fun a i e h => Pc.noConfusion h⟩
  | refSub | freeKey | deferKey | deferTable | deferHti =>
    cases cmd <;> cases hstep
    exact ⟨le_rfl, fun a i e h => Pc.noConfusion h⟩

/-- The clones are numbered upwards. -/
theorem clones_le_run (hrun : run ((client kt).sys N) c es = some c') :
    c.shared.1.ht.clones ≤ c'.shared.1.ht.clones := by
  have hstep : ∀ (x : Conf (Mem × Rcu.Ring) (Pc × Rcu.Pc)) (e : ℕ × Rcu.Input HashtableSteps.Cmd)
      (y : Conf (Mem × Rcu.Ring) (Pc × Rcu.Pc)), c.shared.1.ht.clones ≤ x.shared.1.ht.clones →
      (client kt).sys N x e = some y → c.shared.1.ht.clones ≤ y.shared.1.ht.clones := by
    intro x e y hx hs
    obtain ⟨k', hprog, -⟩ := interleave_eq_some.mp hs
    refine hx.trans ?_
    rcases Rcu.Client.guarded_cases hprog with ⟨j, -, -, -, hwork, -⟩ | ⟨cmd, -, hsame, -, -⟩
    · exact (clones_of_step hwork).1
    · rw [hsame]
  exact run_invariant_always hstep le_rfl hrun

/-- A run makes the clones that its last state has. -/
theorem meets_of_run : ∀ {es : List (ℕ × Rcu.Input HashtableSteps.Cmd)}
    {c : Conf (Mem × Rcu.Ring) (Pc × Rcu.Pc)}, (∀ e ∈ es, Plain e) →
    run ((client kt).sys N) c es = some c' → c'.shared.1.ht.clones ≤ M →
    StepsMeet ((client kt).sys N) (onThread (Rcu.Input.Meets (Ok M))) c es
  | [], _, _, _, _ => trivial
  | (t, i) :: es, c, hplain, hrun, hM => by
    obtain ⟨c₁, hstep, hrest⟩ := run_cons_eq_some.mp hrun
    refine ⟨?_, fun x hx => ?_⟩
    · cases i with
      | update | resume => trivial
      | work cmd =>
        obtain ⟨k', hprog, -⟩ := interleave_eq_some.mp hstep
        have hlt := (clones_of_step (Rcu.Client.guarded_work hprog)).2
        have hcmd := hplain _ List.mem_cons_self
        refine ⟨?_, ?_⟩
        · cases cmd <;> first | exact trivial | exact hcmd
        · split
          · rename_i a i e hpc
            exact ((hlt a i e hpc).trans_le (clones_le_run hrest)).trans_le hM
          · trivial
    · cases Option.some.inj (hstep.symm.trans hx)
      exact meets_of_run (fun e he => hplain e (List.mem_cons_of_mem _ he)) hrest hM

/-- The invariant holds at the start. -/
theorem init_holds (kt : KeyType) (M : ℕ) : init.Holds (Inv kt M) (Loc kt) := by
  obtain ⟨hbase, hloc⟩ := HashtableSteps.init_holds kt
  have hnone : ∀ p j f, ¬ init.shared.ht.HasPtr kt p j f := fun p j f hp => hp.key_ne rfl
  refine ⟨⟨hbase, ⟨?_, ?_⟩, Nat.zero_le M, ?_, fun _ _ => rfl, ?_, List.nodup_nil⟩, fun t => ?_⟩
  · exact fun p i e j f _ _ hp => absurd hp (hnone p i e)
  · exact fun p i e j f _ _ hp => absurd hp (hnone p i e)
  · rintro p ⟨j, -, f, hp⟩
    exact absurd hp (hnone p j f)
  · exact fun a ha => absurd ha List.not_mem_nil
  · exact ⟨hloc t, fun w p hw => absurd hw.symm (Option.some_ne_none w)⟩

/-- **The assertions of `hti_release` and `hti_defer_free` hold.** -/
theorem release_isSome (hi : Inv kt M s) (hl : Loc kt t s pc) (hpc : ∀ x, pc ≠ .call x) :
    (step kt t s pc .resume).isSome = true := by
  cases pc with
  | call x => exact absurd rfl (hpc x)
  | refTest next i =>
    rw [step, if_pos (by rw [hl.2]; exact Nat.one_pos)]
    rfl
  | freeTest next i =>
    rw [step, if_pos hl.2]
    rfl
  | freeVal next i e w =>
    have hdead := hi.tables.chain.retired i e hl.1.passed hl.2.1
    simp only [step]
    split_ifs with hv htag
    · rfl
    · exact absurd hdead (not_or.mpr ⟨hv, htag.2⟩)
    · split <;> rfl
  | refSub | freeKey | deferKey | deferTable | deferHti => rfl

/-- What is passed to `rcu_defer_free` is not `NULL`. -/
theorem defers_ne_zero (hkt : kt.Lawful) (hi : Inv kt M s) (hl : Loc kt t s pc)
    (hd : (client kt).defers pc .resume = some a) : a ≠ 0 := by
  cases pc with
  | deferKey next i e p =>
    cases hd
    obtain ⟨hrel, -, hp, -⟩ := hl
    obtain ⟨n, -, hclone⟩ :=
      hi.made a ⟨i, hrel.passed.trans hi.tables.chain.base_lt, e, hp⟩
    cases kt with
    | integer f => exact hclone.elim
    | typed d =>
      obtain ⟨key, rfl⟩ := hclone
      exact Datatype.Lawful.clone_ne hkt n key
  | deferTable next i =>
    cases hd
    unfold tablePtr
    omega
  | deferHti next i =>
    cases hd
    exact Nat.succ_ne_zero _
  | _ => cases hd

/-- The history has what is passed to `rcu_defer_free`. -/
theorem handed_of_step (kt : KeyType) : ∀ t s k i s' k', (client kt).step t s k i = some (s', k') →
    s'.handed = s.handed ++ ((client kt).defers k i).toList := by
  intro t s pc cmd s' pc' hstep
  have hsame : s'.handed = s.handed → s'.handed = s.handed ++ (none : Option ℕ).toList :=
    fun h => h.trans (List.append_nil _).symm
  cases pc with
  | call x =>
    obtain ⟨⟨tables, next⟩, -, heq⟩ := Option.map_eq_some_iff.mp hstep
    cases heq
    exact hsame (after_handed s x)
  | refTest | freeTest =>
    cases cmd <;> simp only [client, step, reduceCtorEq, Option.ite_none_right_eq_some] at hstep
    obtain ⟨-, heq⟩ := hstep
    cases heq
    exact hsame rfl
  | freeVal next i e w =>
    cases cmd <;> simp only [client, step, reduceCtorEq] at hstep
    split_ifs at hstep
    · cases hstep
      exact hsame rfl
    · split at hstep <;> cases hstep <;> exact hsame rfl
  | refSub | freeKey =>
    cases cmd <;> cases hstep
    exact hsame rfl
  | deferKey | deferTable | deferHti =>
    cases cmd <;> cases hstep
    rfl

/-- **No use after free, and no double free.**  For either kind of keys, any number `N` of
initialised threads and any interleaving of `ht_cas`, `ht_get`, `ht_remove`, `rcu_defer_free` and
`rcu_update`: memory that was freed is of a table that `ht->hti` has passed, no table from
`ht->hti` on uses it, and no table of a thread does; nothing is freed twice; and a thread that
gives a table up can go on. -/
theorem hashtable_freed_untouched (kt : KeyType) (hkt : kt.Lawful) (N : ℕ) (junk : ℕ → ℕ → ℕ)
    (es : List (ℕ × Rcu.Input HashtableSteps.Cmd)) (c : Conf (Mem × Rcu.Ring) (Pc × Rcu.Pc))
    (hplain : ∀ e ∈ es, Plain e)
    (hrun : run ((client kt).sys N) (Rcu.Client.start init junk) es = some c)
    (hnew : Distinct kt c.shared.1.ht.clones) :
    (∀ a, Rcu.Freed c.shared.2.log a →
        (∃ i < c.shared.1.ht.hti, Uses kt c.shared.1.ht a i)
          ∧ (∀ i, c.shared.1.ht.hti ≤ i → ¬ Uses kt c.shared.1.ht a i)
          ∧ ∀ u, ∀ i ∈ (c.thread u).1.tables, ¬ Uses kt c.shared.1.ht a i)
      ∧ (Rcu.freedMem c.shared.2.log).Nodup
      ∧ ∀ u, (∀ pc, (c.thread u).1 ≠ .call pc) → (c.thread u).2 = .returned →
        ((client kt).guarded N u c.shared (c.thread u) (.work .resume)).isSome = true := by
  have hrules := reclaims hkt hnew
  have hok := meets_of_run hplain hrun le_rfl
  have hidle : ∀ t, (client kt).idle (init.thread t) = true := fun _ => rfl
  obtain ⟨⟨hi, hring, -⟩, hl⟩ := (hrules.relyGuarantee N).holds_run
    (hrules.start_holds N junk (init_holds kt _) hidle) hok hrun
  refine ⟨fun a ha => ?_, ?_, fun u hpc hret => ?_⟩
  · obtain ⟨hgone, hap⟩ := hrules.apart_of_freed (init_holds kt _) hidle hok hrun ha
    obtain ⟨i, hlt, hleft⟩ := hgone
    refine ⟨⟨i, hlt, hleft.uses (hlt.trans hi.tables.chain.base_lt)⟩,
      fun j hj => hleft.not_uses hi.shares (hlt.trans_le hj), fun u j hj => ?_⟩
    obtain ⟨b, -, hleft', hbehind⟩ := hap u ⟨i, hlt, hleft⟩
    exact hleft'.not_uses hi.shares (hbehind j hj)
  · exact hrules.freed_once (handed_of_step kt) (fun s hs => hs.nodup) (init_holds kt _) hidle hok hrun
  · have hloc := (hl u).loc
    have hu : u < N := by
      by_contra hge
      have hout := (hl u).outside (not_lt.mp hge)
      cases hk : (c.thread u).1 with
      | call x => exact hpc x hk
      | _ =>
        rw [hk] at hout
        cases hout
    obtain ⟨⟨s', k'⟩, hstep⟩ := Option.isSome_iff_exists.mp (release_isSome hi hloc hpc)
    have hwork : (client kt).step u c.shared.1 (c.thread u).1 .resume = some (s', k') := hstep
    simp only [Rcu.Client.guarded, if_pos (And.intro hu hret), hwork]
    cases hd : (client kt).defers (c.thread u).1 .resume with
    | none => rfl
    | some p =>
      have hp := defers_ne_zero hkt hi hloc hd
      simp only [Rcu.step, if_pos (And.intro hu hp), Option.map_some, Option.isSome_some]

end Runs

/-! ## A table that is given up -/

/-- Keys that compare by their last three digits, with one hash; a table of 16 entries has room
for eight of them. -/
def lastDigits : KeyType := .typed
  { cmp := fun p q => ((p % 1000 : ℕ) : ℤ) - (q % 1000 : ℕ)
    hash := fun _ => 2 ^ 31
    clone := fun n p => 1000 * (n % 2 ^ 20 + 1) + p % 1000 }

/-- The keys of the run are lawful. -/
theorem lastDigits_lawful : lastDigits.Lawful where
  cmp_refl p := sub_self _
  cmp_symm p q h := by
    dsimp only at h ⊢
    omega
  cmp_trans p q r h h' := by
    dsimp only at h h' ⊢
    omega
  hash_eq _ _ _ := rfl
  clone_ne n p := by
    dsimp only
    omega
  clone_lt n p := by
    dsimp only
    omega
  clone_cmp n p := by
    dsimp only
    omega

/-- Their clones are at different addresses. -/
theorem lastDigits_distinct {M : ℕ} (hM : M ≤ 2 ^ 20) : Distinct lastDigits M := by
  rintro n m p hn hm ⟨key, rfl⟩ ⟨key', heq⟩
  dsimp only at heq
  omega

/-- A call of thread 0 with `n` steps. -/
def alone (cmd : HashtableSteps.Cmd) (n : ℕ) : List (ℕ × Rcu.Input HashtableSteps.Cmd) :=
  (0, .work cmd) :: List.replicate n (0, .work .resume)

/-- Thread 0 inserts eight keys, removes them, and inserts three others, on which it moves to a
second table and gives the first one up.  Thread 1 passes the position back, thread 0 frees, and
thread 1 looks a key up. -/
def giveUpRun : List (ℕ × Rcu.Input HashtableSteps.Cmd) :=
  List.flatten
    [(List.range 8).flatMap fun k => alone (.cas ⟨k + 1, expectWhatever, 7⟩) (k + 9),
      (List.range 8).flatMap fun k => alone (.remove (k + 1)) (k + 5),
      alone (.cas ⟨9, expectWhatever, 7⟩) 48, alone (.cas ⟨10, expectWhatever, 7⟩) 72,
      alone (.cas ⟨11, expectWhatever, 7⟩) 38,
      -- rcu_defer_free, ten times; the last one posts the position
      [(7, 3), (7, 3), (7, 3), (7, 11), (7, 3), (7, 3), (7, 3), (7, 9), (7, 1), (11, 43)].flatMap
        fun n => List.replicate n.1 (0, .resume) ++ List.replicate n.2 (0, .work .resume),
      (1, .update) :: List.replicate 7 (1, .resume),
      (0, .update) :: List.replicate 64 (0, .resume),
      [(1, .work (.get 11)), (1, .work .resume)]]

/-- A thread that gives up an entry, a migration and a release. -/
theorem hashtable_freed_untouched_give_up :
    ∃ c, run ((client lastDigits).sys 2) (Rcu.Client.start init fun _ _ => 0) giveUpRun = some c
      ∧ Rcu.Freed c.shared.2.log 5005 ∧ Rcu.Freed c.shared.2.log (tablePtr 0)
      ∧ (Rcu.freedMem c.shared.2.log).Nodup ∧ 1 ∈ (c.thread 1).1.tables
      ∧ ¬ Uses lastDigits c.shared.1.ht 5005 1 ∧ ¬ Uses lastDigits c.shared.1.ht (tablePtr 0) 1 := by
  have h : (run ((client lastDigits).sys 2) (Rcu.Client.start init fun _ _ => 0) giveUpRun).map
      (fun c => decide (.free 0 5005 ∈ c.shared.2.log ∧ .free 0 (tablePtr 0) ∈ c.shared.2.log
        ∧ 1 ∈ (c.thread 1).1.tables ∧ c.shared.1.ht.clones = 11)) = some true := by
    decide +kernel
  obtain ⟨c, hc, hend⟩ := Option.map_eq_some_iff.mp h
  obtain ⟨hkey, htable, hstands, hclones⟩ := of_decide_eq_true hend
  obtain ⟨hfreed, honce, -⟩ := hashtable_freed_untouched lastDigits lastDigits_lawful 2 _ giveUpRun c
    (by decide +kernel) hc (lastDigits_distinct (by rw [hclones]; decide))
  exact ⟨c, hc, ⟨0, hkey⟩, ⟨0, htable⟩, honce, hstands, (hfreed 5005 ⟨0, hkey⟩).2.2 1 1 hstands,
    (hfreed (tablePtr 0) ⟨0, htable⟩).2.2 1 1 hstands⟩

end HashtableReclaim
