/-
# The values of the skiplist's nodes

The `val` field of a node is written by the `sl_cas` that allocates it, by the CAS
of an updating `sl_cas` and by the swap of the `sl_remove` that marked its bottom
level.  The mark at the bottom level is for ever: the only CAS that may wipe a mark
corrects a link of a new node, above the bottom level.

* `Heap.Holds` — the memory and the cells say the same;
* `Pc.At` — where a thread stands in its call;
* `simulates` — every step shows what the automaton accepts.
-/
import Ssr.SkipList
import Ssr.ListValues

open Interleaving Map ValueCells
open LinkedList (Link)

namespace SkipList

/-! ## What a step shows -/

/-- What a `sl_cas` is for. -/
def Cas.kind (args : Cas) : Kind :=
  if args.expectation = expectDoesNotExist then .add else .put

/-- What a call is for. -/
def Op.kind : Op → Kind
  | .lookup _ => .read
  | .cas args => args.kind
  | .remove _ => .remove

/-- `ASSERT((int64_t)new_val > 0)`. -/
def Cas.Asserted (args : Cas) : Prop := 0 < args.new ∧ args.new < 2 ^ 63

instance (args : Cas) : Decidable args.Asserted :=
  inferInstanceAs (Decidable (0 < args.new ∧ args.new < 2 ^ 63))

/-- The call that a step starts meets the assertion. -/
def Cmd.Asserted : Cmd → Prop
  | .call (.cas args) => args.Asserted
  | _ => True

instance (i : Cmd) : Decidable i.Asserted :=
  match i with
  | .call (.cas args) => inferInstanceAs (Decidable args.Asserted)
  | .call (.lookup _) => inferInstanceAs (Decidable True)
  | .call (.remove _) => inferInstanceAs (Decidable True)
  | .rand _ => inferInstanceAs (Decidable True)
  | .resume => inferInstanceAs (Decidable True)

/-- The step starts a call. -/
def Cmd.begins : Cmd → Bool
  | .call _ => true
  | _ => false

/-- What the step stores: the value of a new node, a CAS of a value, the mark of the
bottom level, or the swap of a value. -/
def stores (r : ValueCells.Call) (h : Heap) : Pc → List Obs
  | .casAlloc args _ _ => [.insert r h.brk args.new]
  | .casUpdate args item old =>
    if (h.node item).val = old then [.update r item old args.new] else []
  | .removeMark _ item level next =>
    if level = 0 ∧ h.next item level = next ∧ next.mark = false then [.mark r item] else []
  | .removeSwap _ item => [.remove r item (h.node item).val]
  | _ => []

/-- Where the step leads: a return, or the node that a `sl_remove` found. -/
def outcome (r : ValueCells.Call) : Pc → List Obs
  | .returned v => [.ret r v]
  | .removeLevels _ item => [.found r item]
  | _ => []

/-- What one step shows of its call. -/
def observe (r : ValueCells.Call) (h : Heap) (pc : Pc) (i : Cmd) (pc' : Pc) : List Obs :=
  match i with
  | .call op => [.start r op.kind]
  | _ => stores r h pc ++ outcome r pc'

/-- What is observed along a run from the empty skiplist. -/
def observed (es : List (ℕ × Cmd)) : List Obs :=
  history (fun _ => step) Cmd.begins observe (fun _ => 0) init es

/-- What the `val` field of each allocated node holds. -/
def Heap.vals (h : Heap) (n : ℕ) : Option ℕ :=
  if 0 < n ∧ n < h.brk then some (h.node n).val else none

/-! ## Memory and cells -/

/-- An allocated node other than the sentinel. -/
def Heap.Valid (h : Heap) (n : ℕ) : Prop := 0 < n ∧ n < h.brk

/-- The memory and the cells say the same: the bottom level of a node is marked
when a call marked its cell. -/
structure Heap.Holds (a : Cells) (h : Heap) : Prop where
  vals : a.val = h.vals
  mark : ∀ n, (h.next n 0).mark = (a.owner n).isSome
  links : ∀ n level, ∀ m ∈ (h.next n level).node, h.Valid m
  levels : ∀ n, h.Valid n → 0 < (h.node n).numLevels
  fresh : ∀ n, h.brk ≤ n → a.owner n = none
  brk_pos : 0 < h.brk

namespace Heap

variable {a : Cells} {h : Heap}

/-- A change of a phase is not one of the memory. -/
theorem Holds.enter (hs : h.Holds a) (r : ValueCells.Call) (p : Phase) : h.Holds (a.enter r p) :=
  ⟨hs.vals, hs.mark, hs.links, hs.levels, hs.fresh, hs.brk_pos⟩

/-- A store into a link changes no value. -/
theorem vals_setNext (h : Heap) (n level : ℕ) (l : Link) : (h.setNext n level l).vals = h.vals := by
  funext m
  simp [vals]

/-- The links of a node after a store into one of them. -/
theorem Holds.links_setNext (hs : h.Holds a) {n level : ℕ} {l : Link}
    (hl : ∀ m ∈ l.node, h.Valid m) (b k : ℕ) :
    ∀ m ∈ ((h.setNext n level l).next b k).node, (h.setNext n level l).Valid m := by
  rw [next_setNext]
  split_ifs
  · exact hl
  · exact hs.links b k

/-- A store into a link that keeps the mark of the bottom level. -/
theorem Holds.setNext (hs : h.Holds a) {n level : ℕ} {l : Link}
    (hmark : level = 0 → l.mark = (h.next n 0).mark) (hl : ∀ m ∈ l.node, h.Valid m) :
    (h.setNext n level l).Holds a where
  vals := by rw [vals_setNext, hs.vals]
  mark := by
    intro m
    rw [next_setNext, ← hs.mark m]
    split_ifs with heq
    · rw [heq.1]
      exact hmark heq.2.symm
    · rfl
  links := hs.links_setNext hl
  levels := by
    intro m hm
    rw [numLevels_setNext]
    exact hs.levels m hm
  fresh := hs.fresh
  brk_pos := hs.brk_pos

/-- The store that marks the bottom level. -/
theorem Holds.claim (hs : h.Holds a) (r : ValueCells.Call) {n : ℕ} (hn : h.Valid n) {l : Link}
    (hmark : l.mark = true) (hl : ∀ m ∈ l.node, h.Valid m) :
    (h.setNext n 0 l).Holds (a.claim r n) where
  vals := by rw [vals_setNext, Cells.claim_val, hs.vals]
  mark := by
    intro m
    rw [next_setNext]
    by_cases hm : m = n
    · subst hm
      simpa using hmark
    · simpa [hm] using hs.mark m
  links := hs.links_setNext hl
  levels := by
    intro m hm
    rw [numLevels_setNext]
    exact hs.levels m hm
  fresh := by
    intro m hm
    have hne : m ≠ n := (lt_of_lt_of_le hn.2 hm).ne'
    simpa [hne] using hs.fresh m hm
  brk_pos := hs.brk_pos

/-- A store into the `val` field of an allocated node. -/
theorem Holds.setVal (hs : h.Holds a) {n : ℕ} (hn : h.Valid n) (v : ℕ) :
    (h.setVal n v).Holds (a.write n v) where
  vals := by
    rw [Cells.write_val, hs.vals]
    funext m
    by_cases hm : m = n
    · subst hm
      simp [Heap.vals, val_setVal, hn.1, hn.2]
    · simp [Heap.vals, val_setVal, hm]
  mark := fun m => by simpa using hs.mark m
  links := fun m level => by simpa [Heap.Valid] using hs.links m level
  levels := by
    intro m hm
    rw [numLevels_setVal]
    exact hs.levels m hm
  fresh := hs.fresh
  brk_pos := hs.brk_pos

/-- `node_alloc` fills a fresh cell. -/
theorem Holds.alloc (hs : h.Holds a) (args : Cas) {n : ℕ} (hn : 0 < n) {succs : ℕ → Option ℕ}
    (hsuccs : ∀ level, ∀ m ∈ succs level, h.Valid m) :
    (h.alloc args n succs).Holds (a.write h.brk args.new) where
  vals := by
    rw [Cells.write_val, hs.vals]
    funext m
    by_cases hm : m = h.brk
    · subst hm
      simp [Heap.vals, hs.brk_pos, Heap.alloc]
    · have hlt : m < h.brk + 1 ↔ m < h.brk := by omega
      simp [Heap.vals, Heap.alloc, hm, hlt]
  mark := by
    intro m
    by_cases hm : m = h.brk
    · subst hm
      simp [Heap.next, hs.fresh]
    · simpa [Heap.next, node_alloc_of_ne h hm] using hs.mark m
  links := by
    intro m level i hi
    have hv : h.Valid i := by
      by_cases hm : m = h.brk
      · subst hm
        apply hsuccs level
        simp only [Heap.next, node_alloc_brk] at hi
        split_ifs at hi
        · exact hi
        · cases hi
      · exact hs.links m level i (by simpa [Heap.next, node_alloc_of_ne h hm] using hi)
    exact ⟨hv.1, Nat.lt_succ_of_lt hv.2⟩
  levels := by
    intro m hm
    by_cases hb : m = h.brk
    · subst hb
      rw [node_alloc_brk]
      exact hn
    · rw [node_alloc_of_ne h hb]
      exact hs.levels m ⟨hm.1, lt_of_le_of_ne (Nat.lt_succ_iff.mp hm.2) hb⟩
  fresh := fun m hm => hs.fresh m (Nat.le_of_succ_le hm)
  brk_pos := Nat.succ_pos _

/-- The cell of an allocated node holds its value. -/
theorem Holds.val_valid (hs : h.Holds a) {n : ℕ} (hn : h.Valid n) :
    a.val n = some (h.node n).val := by
  rw [hs.vals]
  simp [Heap.vals, hn.1, hn.2]

/-- The next node has no value yet. -/
theorem Holds.val_brk (hs : h.Holds a) : a.val h.brk = none := by
  rw [hs.vals]
  simp [Heap.vals]

end Heap

/-! ## Where a thread stands in its call -/

/-- The recorded successors are nodes. -/
def Path.Valid (h : Heap) (path : Path) : Prop := ∀ level, ∀ m ∈ path.succs level, h.Valid m

/-- A search knows nodes only. -/
def Find.Valid (h : Heap) (f : Find) : Prop := f.path.Valid h ∧ ∀ m ∈ f.item, h.Valid m

/-- An insertion knows nodes only. -/
def Insert.Valid (h : Heap) (ins : Insert) : Prop := ins.path.Valid h ∧ h.Valid ins.newItem

/-- The call has inserted its node, or given up, and will return `DOES_NOT_EXIST`. -/
def Inserted (p : Phase) : Prop := p = .running .add ∨ p = .running .put

/-- The phase of the call on whose behalf `find_preds` runs. -/
def Caller.At (p : Phase) (h : Heap) : Caller → Prop
  | .lookup _ => p = .running .read
  | .cas args n => p = .running args.kind ∧ args.Asserted ∧ 0 < n
  | .relink _ newItem _ level => Inserted p ∧ h.Valid newItem ∧ 0 < level
  | .clean _ => Inserted p
  | .remove _ _ => p = .running .remove
  | .unlinkRemoved _ _ val => p = .removed val

/-- The phase of the call of a thread that stands at a given place, and the nodes
that it knows there. -/
def Pc.At (p : Phase) (h : Heap) : Pc → Prop
  | .returned v => p = .idle ∨ p = .returned v
  | .findStart c path => c.At p h ∧ path.Valid h
  | .findPred c f => c.At p h ∧ f.Valid h
  | .findNext c f item => c.At p h ∧ f.Valid h ∧ h.Valid item
  | .findUnlink c f item next => c.At p h ∧ f.Valid h ∧ h.Valid item ∧ ∀ m ∈ next.node, h.Valid m
  | .findKey c f item next => c.At p h ∧ f.Valid h ∧ h.Valid item ∧ ∀ m ∈ next.node, h.Valid m
  | .lookupVal _ => p = .running .read
  | .casRandom args => p = .running args.kind ∧ args.Asserted
  | .casHighWater args levels => p = .running args.kind ∧ args.Asserted ∧ 0 < levels
  | .casRaise args => p = .running args.kind ∧ args.Asserted
  | .casVal args item => p = .running args.kind ∧ args.Asserted ∧ h.Valid item
  | .casUpdate args item old => p = .running args.kind ∧ args.Asserted ∧ h.Valid item ∧
      old ≠ doesNotExist ∧ args.expectation ≠ expectDoesNotExist
  | .casAlloc args n path => p = .running args.kind ∧ args.Asserted ∧ 0 < n ∧ path.Valid h
  | .casBottom args ins => p = .running args.kind ∧ args.Asserted ∧ ins.Valid h
  | .casLink _ ins level => Inserted p ∧ ins.Valid h ∧ 0 < level
  | .casReload _ ins level i => Inserted p ∧ ins.Valid h ∧ 0 < level ∧ 0 < i
  | .casStore _ ins level i _ => Inserted p ∧ ins.Valid h ∧ 0 < level ∧ 0 < i
  | .casCheck _ ins => Inserted p ∧ ins.Valid h
  | .removeHighWater _ => p = .running .remove
  | .removeLevels _ item => p = .found item ∧ h.Valid item
  | .removeNext _ item _ => p = .found item ∧ h.Valid item
  | .removeMark _ item _ next => p = .found item ∧ h.Valid item ∧ ∀ m ∈ next.node, h.Valid m
  | .removeSwap _ item => p = .marked item ∧ h.Valid item
  | .removeDefer _ val => p = .removed val

/-- What a step of another thread leaves alone. -/
def Heap.Extends (h h' : Heap) : Prop := h.brk ≤ h'.brk

/-- A node stays a node. -/
theorem Heap.Valid.extend {h h' : Heap} {n : ℕ} (hn : h.Valid n) (hext : h.Extends h') :
    h'.Valid n :=
  ⟨hn.1, lt_of_lt_of_le hn.2 hext⟩

/-- So do those on a path. -/
theorem Path.Valid.extend {h h' : Heap} {path : Path} (hp : path.Valid h) (hext : h.Extends h') :
    path.Valid h' :=
  fun level m hm => (hp level m hm).extend hext

/-- So do those of a search. -/
theorem Find.Valid.extend {h h' : Heap} {f : Find} (hf : f.Valid h) (hext : h.Extends h') :
    f.Valid h' :=
  ⟨hf.1.extend hext, fun m hm => (hf.2 m hm).extend hext⟩

/-- So does a new node. -/
theorem Insert.Valid.extend {h h' : Heap} {ins : Insert} (hi : ins.Valid h)
    (hext : h.Extends h') : ins.Valid h' :=
  ⟨hi.1.extend hext, hi.2.extend hext⟩

/-- The caller stays where it is. -/
theorem Caller.At.extend {p : Phase} {h h' : Heap} {c : Caller} (hat : c.At p h)
    (hext : h.Extends h') : c.At p h' := by
  cases c with
  | relink key newItem n level => exact ⟨hat.1, hat.2.1.extend hext, hat.2.2⟩
  | _ => exact hat

/-- So does the thread. -/
theorem Pc.At.extend {p : Phase} {h h' : Heap} {pc : Pc} (hext : h.Extends h') (hat : pc.At p h) :
    pc.At p h' := by
  have hv : ∀ {n}, h.Valid n → h'.Valid n := fun hn => hn.extend hext
  have hpath : ∀ {path : Path}, path.Valid h → path.Valid h' := fun hp => hp.extend hext
  have hfind : ∀ {f : Find}, f.Valid h → f.Valid h' := fun hf => hf.extend hext
  have hins : ∀ {ins : Insert}, ins.Valid h → ins.Valid h' := fun hi => hi.extend hext
  have hcaller : ∀ {c : Caller}, c.At p h → c.At p h' := fun hc => hc.extend hext
  cases pc <;> simp only [Pc.At] at hat ⊢ <;> grind

/-- A call that searches has not updated a value. -/
theorem Caller.At.settled {p : Phase} {h : Heap} {c : Caller} (hat : c.At p h) (old : ℕ) :
    p ≠ .updated old := by
  cases c <;> simp only [Caller.At, Inserted] at hat <;> grind

/-- Nor has one before its CAS on the value. -/
theorem Pc.At.settled {p : Phase} {h : Heap} {pc : Pc} (hat : pc.At p h) (old : ℕ) :
    p ≠ .updated old := by
  have hcaller : ∀ {c : Caller}, c.At p h → p ≠ .updated old := fun hc => hc.settled old
  cases pc <;> simp only [Pc.At, Inserted] at hat <;> grind

/-! ## The simulation -/

section Landing

variable {r : ValueCells.Call} {a : Cells} {h : Heap}

/-- The call of `r` can be observed to go on to `pc`. -/
def Lands (r : ValueCells.Call) (a : Cells) (h : Heap) (pc : Pc) : Prop :=
  ∃ a', run accept a (outcome r pc) = some a' ∧ h.Holds a' ∧ pc.At (a'.phase r) h

/-- A step that goes on. -/
theorem lands_of_at {pc : Pc} (hs : h.Holds a) (hout : outcome r pc = [])
    (hat : pc.At (a.phase r) h) : Lands r a h pc :=
  ⟨a, by rw [hout]; rfl, hs, hat⟩

/-- A step that returns. -/
theorem lands_returned {v : ℕ} (hs : h.Holds a) (hp : (a.phase r).mayReturn v = true) :
    Lands r a h (.returned v) := by
  refine ⟨a.enter r (.returned v), ?_, hs.enter r _, ?_⟩
  · exact run_cons_eq_some.mpr ⟨_, accept_ret.mpr ⟨hp, rfl⟩, rfl⟩
  · exact Or.inr (Function.update_self ..)

/-- An insertion returns `DOES_NOT_EXIST`. -/
theorem Inserted.mayReturn {p : Phase} (hp : Inserted p) : p.mayReturn doesNotExist = true := by
  rcases hp with rfl | rfl <;> rfl

/-- A call that may insert. -/
theorem Cas.kind_inserted (args : Cas) : Inserted (.running args.kind) := by
  unfold Cas.kind
  split_ifs
  · exact Or.inl rfl
  · exact Or.inr rfl

/-- An insertion goes on with its next level. -/
theorem lands_reloadLevel {key level i : ℕ} {ins : Insert} (hs : h.Holds a)
    (hp : Inserted (a.phase r)) (hins : ins.Valid h) (hlevel : 0 < level) (hi : 0 < i) :
    Lands r a h (reloadLevel key ins level i) := by
  unfold reloadLevel
  split_ifs
  · exact lands_of_at hs rfl ⟨hp, hins, hlevel, hi⟩
  · exact lands_of_at hs rfl ⟨hp, hins, hlevel⟩

/-- So it does after a level is linked. -/
theorem lands_linkLevel {key level : ℕ} {ins : Insert} (hs : h.Holds a)
    (hp : Inserted (a.phase r)) (hins : ins.Valid h) (hlevel : 0 < level) :
    Lands r a h (linkLevel key ins level) := by
  unfold linkLevel
  split_ifs
  · exact lands_of_at hs rfl ⟨hp, hins, hlevel⟩
  · exact lands_of_at hs rfl ⟨hp, hins⟩

/-- A search returns to its caller. -/
theorem lands_resume {c : Caller} {path : Path} {item : Option ℕ} (hs : h.Holds a)
    (hc : c.At (a.phase r) h) (hpath : path.Valid h) (hitem : ∀ m ∈ item, h.Valid m) :
    Lands r a h (resume c path item) := by
  cases c with
  | lookup key =>
    have hp : a.phase r = .running .read := hc
    cases item with
    | some i => exact lands_of_at hs rfl hp
    | none => exact lands_returned hs (by rw [hp]; rfl)
  | cas args n =>
    obtain ⟨hp, hargs, hn⟩ := hc
    cases item with
    | some i => exact lands_of_at hs rfl ⟨hp, hargs, hitem i rfl⟩
    | none =>
      simp only [resume]
      split_ifs
      · exact lands_returned hs (hp ▸ args.kind_inserted.mayReturn)
      · exact lands_of_at hs rfl ⟨hp, hargs, hn, hpath⟩
  | relink key newItem n level =>
    obtain ⟨hp, hnew, hlevel⟩ := hc
    exact lands_reloadLevel hs hp ⟨hpath, hnew⟩ hlevel hlevel
  | clean key => exact lands_returned hs (Inserted.mayReturn hc)
  | remove key n =>
    have hp : a.phase r = .running .remove := hc
    cases item with
    | none => exact lands_returned hs (by rw [hp]; rfl)
    | some i =>
      have hv : h.Valid i := hitem i rfl
      refine ⟨a.enter r (.found i), ?_, hs.enter r _, Function.update_self .., hv⟩
      refine run_cons_eq_some.mpr ⟨_, accept_found.mpr ⟨⟨hp, ?_⟩, rfl⟩, rfl⟩
      rw [hs.val_valid hv]
      simp
  | unlinkRemoved key item val => exact lands_of_at hs rfl hc

/-- A search goes down. -/
theorem lands_descend {c : Caller} {f : Find} (hs : h.Holds a) (hc : c.At (a.phase r) h)
    (hf : f.Valid h) (level : ℕ) : Lands r a h (descend c f level) := by
  cases level with
  | zero =>
    apply lands_resume hs hc hf.1
    split_ifs
    · exact hf.2
    · exact fun m hm => nomatch hm
  | succ level => exact lands_of_at hs rfl ⟨hc, hf⟩

/-- A level that is done is recorded. -/
theorem Path.Valid.record {path : Path} {item : Option ℕ} (hpath : path.Valid h)
    (hitem : ∀ m ∈ item, h.Valid m) (level pred : ℕ) : (path.record level pred item).Valid h := by
  intro l
  by_cases hl : l = level
  · subst hl
    simpa [Path.record] using hitem
  · simpa [Path.record, hl] using hpath l

/-- A level is done. -/
theorem lands_levelDone {c : Caller} {f : Find} {item : Option ℕ} (hs : h.Holds a)
    (hc : c.At (a.phase r) h) (hf : f.Valid h) (hitem : ∀ m ∈ item, h.Valid m) :
    Lands r a h (levelDone c f item) := by
  refine lands_descend hs hc ⟨?_, hitem⟩ _
  show Path.Valid h (if f.level < c.n then _ else _)
  split_ifs
  · exact hf.1.record hitem _ _
  · exact hf.1

/-- A search comes to a node. -/
theorem lands_visit {c : Caller} {f : Find} {item : Option ℕ} (hs : h.Holds a)
    (hc : c.At (a.phase r) h) (hf : f.Valid h) (hitem : ∀ m ∈ item, h.Valid m) :
    Lands r a h (visit c f item) := by
  cases item with
  | none => exact lands_levelDone hs hc hf hitem
  | some i => exact lands_of_at hs rfl ⟨hc, hf, hitem i rfl⟩

/-- A search has loaded the link of a node. -/
theorem lands_examine {c : Caller} {f : Find} {item : ℕ} {next : Link} (hs : h.Holds a)
    (hc : c.At (a.phase r) h) (hf : f.Valid h) (hv : h.Valid item)
    (hnext : ∀ m ∈ next.node, h.Valid m) : Lands r a h (examine c f item next) := by
  unfold examine
  split_ifs
  · exact lands_visit hs hc hf hnext
  · exact lands_of_at hs rfl ⟨hc, hf, hv, hnext⟩
  · exact lands_of_at hs rfl ⟨hc, hf, hv, hnext⟩

/-- A search begins. -/
theorem lands_search {c : Caller} (hs : h.Holds a) (hc : c.At (a.phase r) h) :
    Lands r a h (search c) :=
  lands_of_at hs rfl ⟨hc, fun _ _ hm => by cases hm⟩

end Landing

/-- What a step shows and where it leads. -/
def Shows (r : ValueCells.Call) (a : Cells) (h : Heap) (pc : Pc) (h' : Heap) (pc' : Pc) : Prop :=
  ∃ a', run accept a (stores r h pc ++ outcome r pc') = some a' ∧ h'.Holds a'
    ∧ pc'.At (a'.phase r) h' ∧ h.Extends h'

section Shows

variable {r : ValueCells.Call} {a : Cells} {h h' : Heap} {pc pc' : Pc}

/-- A step that stores no value and no bottom mark. -/
theorem Lands.shows (hl : Lands r a h' pc') (hst : stores r h pc = []) (hext : h.Extends h') :
    Shows r a h pc h' pc' := by
  obtain ⟨a', hrun, hs, hat⟩ := hl
  exact ⟨a', by rw [hst, List.nil_append]; exact hrun, hs, hat, hext⟩

/-- A step that stores one of them. -/
theorem Lands.shows_store {a₁ : Cells} {o : Obs} (hl : Lands r a₁ h' pc')
    (hst : stores r h pc = [o]) (hacc : accept a o = some a₁) (hext : h.Extends h') :
    Shows r a h pc h' pc' := by
  obtain ⟨a', hrun, hs, hat⟩ := hl
  refine ⟨a', ?_, hs, hat, hext⟩
  rw [hst]
  exact run_cons_eq_some.mpr ⟨a₁, hacc, hrun⟩

/-! ### `find_preds` -/

/-- A search loads the first link of a level. -/
theorem shows_findPred {c : Caller} {f : Find} (hs : h.Holds a)
    (hat : (Pc.findPred c f).At (a.phase r) h)
    (hstep : step h (.findPred c f) .resume = some (h', pc')) :
    Shows r a h (.findPred c f) h' pc' := by
  obtain ⟨hc, hf⟩ := hat
  simp only [step] at hstep
  split_ifs at hstep <;> cases hstep
  · exact Lands.shows (lands_descend hs hc hf _) rfl le_rfl
  · exact Lands.shows (lands_of_at hs rfl ⟨hc, hf.1⟩) rfl le_rfl
  · exact Lands.shows (lands_visit hs hc hf (hs.links _ _)) rfl le_rfl

/-- A search unlinks a marked node. -/
theorem shows_findUnlink {c : Caller} {f : Find} {item : ℕ} {next : Link} (hs : h.Holds a)
    (hat : (Pc.findUnlink c f item next).At (a.phase r) h)
    (hstep : step h (.findUnlink c f item next) .resume = some (h', pc')) :
    Shows r a h (.findUnlink c f item next) h' pc' := by
  obtain ⟨hc, hf, hv, hnext⟩ := hat
  simp only [step] at hstep
  split_ifs at hstep with hother hmark <;> cases hstep
  · have hs' : (h.setNext f.pred f.level ⟨next.node, false⟩).Holds a := by
      refine hs.setNext (fun hlevel => ?_) hnext
      rw [hlevel] at hother
      rw [hother]
    exact Lands.shows (lands_visit hs' hc hf hnext) rfl le_rfl
  · exact Lands.shows (lands_of_at hs rfl ⟨hc, hf.1⟩) rfl le_rfl
  · exact Lands.shows (lands_visit hs hc hf (hs.links _ _)) rfl le_rfl

/-- A search compares keys. -/
theorem shows_findKey {c : Caller} {f : Find} {item : ℕ} {next : Link} (hs : h.Holds a)
    (hat : (Pc.findKey c f item next).At (a.phase r) h)
    (hstep : step h (.findKey c f item next) .resume = some (h', pc')) :
    Shows r a h (.findKey c f item next) h' pc' := by
  obtain ⟨hc, hf, hv, hnext⟩ := hat
  simp only [step] at hstep
  split_ifs at hstep <;> cases hstep
  · exact Lands.shows (lands_levelDone hs hc hf (by rintro m ⟨⟩; exact hv)) rfl le_rfl
  · exact Lands.shows (lands_visit hs hc hf hnext) rfl le_rfl

/-! ### `sl_remove` -/

/-- The CAS that marks a level. -/
theorem shows_removeMark {key item level : ℕ} {next : Link} (hs : h.Holds a)
    (hat : (Pc.removeMark key item level next).At (a.phase r) h)
    (hstep : step h (.removeMark key item level next) .resume = some (h', pc')) :
    Shows r a h (.removeMark key item level next) h' pc' := by
  obtain ⟨hp, hv, hnext⟩ := hat
  -- the node was marked, or another level is marked
  have hmarked : ∀ {h' : Heap}, h'.Holds a → h'.Valid item → level ≠ 0 →
      Lands r a h' (markLevel key item level) := by
    intro h' hs' hv' hlevel
    obtain ⟨l, rfl⟩ := Nat.exists_eq_succ_of_ne_zero hlevel
    exact lands_of_at hs' rfl ⟨hp, hv'⟩
  have hzero : ∀ {h' : Heap}, h'.Holds a → Lands r a h' (.returned doesNotExist) := by
    intro h' hs'
    exact lands_returned hs' (by rw [hp]; rfl)
  simp only [step] at hstep
  by_cases heq : h.next item level = next
  · simp only [heq, if_true] at hstep
    by_cases hmark : next.mark = true
    · have hst : stores r h (.removeMark key item level next) = [] := by simp [stores, hmark]
      have hs' : (h.setNext item level ⟨next.node, true⟩).Holds a := by
        refine hs.setNext (fun hlevel => ?_) hnext
        rw [hlevel] at heq
        rw [heq, hmark]
      simp only [hmark, if_true] at hstep
      split_ifs at hstep with hlevel <;> cases hstep
      · exact Lands.shows (hzero hs') hst le_rfl
      · exact Lands.shows (hmarked hs' hv hlevel) hst le_rfl
    · simp only [hmark] at hstep
      cases hstep
      by_cases hlevel : level = 0
      · subst hlevel
        have hst : stores r h (.removeMark key item 0 next) = [.mark r item] := by
          simp [stores, heq, hmark]
        have hown : a.owner item = none := by
          have hm := hs.mark item
          rw [heq, Bool.eq_false_iff.mpr hmark] at hm
          exact Option.isNone_iff_eq_none.mp (by simpa using hm.symm)
        have hs' : (h.setNext item 0 ⟨next.node, true⟩).Holds
            ((a.claim r item).enter r (.marked item)) :=
          (hs.claim r hv (l := ⟨next.node, true⟩) rfl hnext).enter r _
        refine Lands.shows_store (lands_of_at hs' rfl ?_) hst
          (accept_mark.mpr ⟨⟨hp, hown⟩, rfl⟩) le_rfl
        exact ⟨Function.update_self .., hv⟩
      · have hst : stores r h (.removeMark key item level next) = [] := by simp [stores, hlevel]
        have hs' : (h.setNext item level ⟨next.node, true⟩).Holds a :=
          hs.setNext (fun h0 => absurd h0 hlevel) hnext
        exact Lands.shows (hmarked hs' hv hlevel) hst le_rfl
  · have hst : stores r h (.removeMark key item level next) = [] := by simp [stores, heq]
    simp only [heq, if_false] at hstep
    split_ifs at hstep with hmark hlevel <;> cases hstep
    · exact Lands.shows (hzero hs) hst le_rfl
    · exact Lands.shows (hmarked hs hv hlevel) hst le_rfl
    · exact Lands.shows (lands_of_at hs rfl ⟨hp, hv, hs.links _ _⟩) hst le_rfl

/-! ### `sl_cas` -/

/-- The CAS at the bottom. -/
theorem shows_casBottom {args : Cas} {ins : Insert} (hs : h.Holds a)
    (hat : (Pc.casBottom args ins).At (a.phase r) h)
    (hstep : step h (.casBottom args ins) .resume = some (h', pc')) :
    Shows r a h (.casBottom args ins) h' pc' := by
  obtain ⟨hp, hargs, hins⟩ := hat
  have hinserted : Inserted (a.phase r) := hp ▸ args.kind_inserted
  simp only [step] at hstep
  split_ifs at hstep with hnext <;> cases hstep
  · have hs' : (h.setNext (ins.path.preds 0) 0 ⟨some ins.newItem, false⟩).Holds a :=
      hs.setNext (fun _ => by rw [hnext]) (by rintro m ⟨⟩; exact hins.2)
    exact Lands.shows (lands_linkLevel hs' hinserted hins Nat.one_pos) rfl le_rfl
  · exact Lands.shows (lands_of_at hs rfl ⟨hp, hargs⟩) rfl le_rfl

/-- The CAS at an upper level. -/
theorem shows_casLink {key level : ℕ} {ins : Insert} (hs : h.Holds a)
    (hat : (Pc.casLink key ins level).At (a.phase r) h)
    (hstep : step h (.casLink key ins level) .resume = some (h', pc')) :
    Shows r a h (.casLink key ins level) h' pc' := by
  obtain ⟨hp, hins, hlevel⟩ := hat
  simp only [step] at hstep
  split_ifs at hstep <;> cases hstep
  · have hs' : (h.setNext (ins.path.preds level) level ⟨some ins.newItem, false⟩).Holds a :=
      hs.setNext (fun h0 => absurd h0 hlevel.ne') (by rintro m ⟨⟩; exact hins.2)
    exact Lands.shows (lands_linkLevel hs' hp hins (Nat.succ_pos _)) rfl le_rfl
  · exact Lands.shows (lands_of_at hs rfl ⟨⟨hp, hins.2, hlevel⟩, hins.1⟩) rfl le_rfl

/-- The link of the new node is loaded. -/
theorem shows_casReload {key level i : ℕ} {ins : Insert} (hs : h.Holds a)
    (hat : (Pc.casReload key ins level i).At (a.phase r) h)
    (hstep : step h (.casReload key ins level i) .resume = some (h', pc')) :
    Shows r a h (.casReload key ins level i) h' pc' := by
  obtain ⟨hp, hins, hlevel, hi⟩ := hat
  simp only [step] at hstep
  split_ifs at hstep <;> cases hstep
  · exact Lands.shows (lands_reloadLevel hs hp hins hlevel (Nat.succ_pos _)) rfl le_rfl
  · exact Lands.shows (lands_of_at hs rfl ⟨hp, hins, hlevel, hi⟩) rfl le_rfl

/-- The CAS that corrects a link of the new node: it may wipe a mark, but not at
the bottom level. -/
theorem shows_casStore {key level i : ℕ} {ins : Insert} {old : Link} (hs : h.Holds a)
    (hat : (Pc.casStore key ins level i old).At (a.phase r) h)
    (hstep : step h (.casStore key ins level i old) .resume = some (h', pc')) :
    Shows r a h (.casStore key ins level i old) h' pc' := by
  obtain ⟨hp, hins, hlevel, hi⟩ := hat
  have hs' : (h.setNext ins.newItem i ⟨ins.path.succs i, false⟩).Holds a :=
    hs.setNext (fun h0 => absurd h0 hi.ne') (hins.1 i)
  have hclean : (Caller.clean key).At (a.phase r) h := hp
  simp only [step] at hstep
  split_ifs at hstep <;> cases hstep
  · exact Lands.shows (lands_search hs' hclean) rfl le_rfl
  · exact Lands.shows (lands_search hs hclean) rfl le_rfl
  · exact Lands.shows (lands_reloadLevel hs' hp hins hlevel (Nat.succ_pos _)) rfl le_rfl
  · exact Lands.shows (lands_reloadLevel hs hp hins hlevel (Nat.succ_pos _)) rfl le_rfl

/-- The bottom link of the new node is looked at for a mark. -/
theorem shows_casCheck {key : ℕ} {ins : Insert} (hs : h.Holds a)
    (hat : (Pc.casCheck key ins).At (a.phase r) h)
    (hstep : step h (.casCheck key ins) .resume = some (h', pc')) :
    Shows r a h (.casCheck key ins) h' pc' := by
  obtain ⟨hp, hins⟩ := hat
  have hclean : (Caller.clean key).At (a.phase r) h := hp
  simp only [step] at hstep
  split_ifs at hstep <;> cases hstep
  · exact Lands.shows (lands_search hs hclean) rfl le_rfl
  · exact Lands.shows (lands_returned hs hp.mayReturn) rfl le_rfl

/-! ### `update_item` -/

/-- `update_item` loads the value. -/
theorem shows_casVal {args : Cas} {item : ℕ} (hs : h.Holds a)
    (hat : (Pc.casVal args item).At (a.phase r) h)
    (hstep : step h (.casVal args item) .resume = some (h', pc')) :
    Shows r a h (.casVal args item) h' pc' := by
  obtain ⟨hp, hargs, hv⟩ := hat
  simp only [step] at hstep
  split_ifs at hstep with hold hexp <;> cases hstep
  · exact Lands.shows (lands_of_at hs rfl ⟨hp, hargs⟩) rfl le_rfl
  · refine Lands.shows (lands_returned hs ?_) rfl le_rfl
    rw [hp, show args.kind = .add from if_pos hexp]
    rfl
  · exact Lands.shows (lands_of_at hs rfl ⟨hp, hargs, hv, hold, hexp⟩) rfl le_rfl

/-- The CAS on the value. -/
theorem shows_casUpdate {args : Cas} {item old : ℕ} (hs : h.Holds a)
    (hat : (Pc.casUpdate args item old).At (a.phase r) h)
    (hstep : step h (.casUpdate args item old) .resume = some (h', pc')) :
    Shows r a h (.casUpdate args item old) h' pc' := by
  obtain ⟨hp, hargs, hv, hold, hexp⟩ := hat
  simp only [step] at hstep
  split_ifs at hstep with hval <;> cases hstep
  · subst hval
    have hacc : accept a (.update r item (h.node item).val args.new)
        = some ((a.write item args.new).enter r (.updated (h.node item).val)) := by
      refine accept_update.mpr ⟨⟨?_, hs.val_valid hv, hold, hargs.1.ne'⟩, rfl⟩
      rw [hp, show args.kind = .put from if_neg hexp]
    have hs' := (hs.setVal hv args.new).enter r (.updated (h.node item).val)
    refine Lands.shows_store (lands_returned hs' ?_) (if_pos rfl) hacc le_rfl
    rw [Cells.enter_phase, Function.update_self]
    simp [Phase.mayReturn]
  · exact Lands.shows (lands_of_at hs rfl ⟨hp, hargs, hv⟩) (if_neg hval) le_rfl

end Shows

/-- A step of a running call. -/
theorem shows_step {r : ValueCells.Call} {a : Cells} {h h' : Heap} {pc pc' : Pc} {i : Cmd} (hs : h.Holds a)
    (hi : i.begins = false) (hat : pc.At (a.phase r) h) (hstep : step h pc i = some (h', pc')) :
    Shows r a h pc h' pc' := by
  cases i with
  | call op => cases hi
  | rand z =>
    cases pc with
    | casRandom args =>
      obtain ⟨hp, hargs⟩ := hat
      simp only [step] at hstep
      split_ifs at hstep with hz hlevels <;> cases hstep
      · exact Lands.shows (lands_search hs ⟨hp, hargs, Nat.one_pos⟩) rfl le_rfl
      · exact Lands.shows (lands_of_at hs rfl ⟨hp, hargs, Nat.pos_of_ne_zero hlevels⟩) rfl le_rfl
    | _ => cases hstep
  | resume =>
    cases pc with
    | returned v => cases hstep
    | casRandom args => cases hstep
    | findStart c path =>
      cases hstep
      obtain ⟨hc, hpath⟩ := hat
      have hf : Find.Valid h ⟨0, none, 0, 0, path⟩ := ⟨hpath, fun m hm => by cases hm⟩
      exact Lands.shows (lands_descend hs hc hf _) rfl le_rfl
    | findPred c f => exact shows_findPred hs hat hstep
    | findNext c f item =>
      cases hstep
      obtain ⟨hc, hf, hv⟩ := hat
      exact Lands.shows (lands_examine hs hc hf hv (hs.links _ _)) rfl le_rfl
    | findUnlink c f item next => exact shows_findUnlink hs hat hstep
    | findKey c f item next => exact shows_findKey hs hat hstep
    | lookupVal item =>
      cases hstep
      have hp : a.phase r = .running .read := hat
      exact Lands.shows (lands_returned hs (by rw [hp]; rfl)) rfl le_rfl
    | casHighWater args levels =>
      obtain ⟨hp, hargs, hlevels⟩ := hat
      simp only [step] at hstep
      split_ifs at hstep <;> cases hstep
      · exact Lands.shows (lands_of_at hs rfl ⟨hp, hargs⟩) rfl le_rfl
      · refine Lands.shows (lands_search hs ⟨hp, hargs, ?_⟩) rfl le_rfl
        simp only [maxLevels]
        omega
    | casRaise args =>
      cases hstep
      obtain ⟨hp, hargs⟩ := hat
      have hs' : Heap.Holds a { h with highWater := h.highWater + 1 } :=
        ⟨hs.vals, hs.mark, hs.links, hs.levels, hs.fresh, hs.brk_pos⟩
      refine Lands.shows (lands_search hs' ⟨hp, hargs, ?_⟩) rfl le_rfl
      simp only [maxLevels]
      omega
    | casVal args item => exact shows_casVal hs hat hstep
    | casUpdate args item old => exact shows_casUpdate hs hat hstep
    | casAlloc args n path =>
      cases hstep
      obtain ⟨hp, hargs, hn, hpath⟩ := hat
      have hacc : accept a (.insert r h.brk args.new) = some (a.write h.brk args.new) :=
        accept_insert.mpr ⟨⟨hp ▸ args.kind_inserted, hs.val_brk, hargs.1.ne'⟩, rfl⟩
      have hext : h.Extends (h.alloc args n path.succs) := Nat.le_succ _
      refine Lands.shows_store (lands_of_at (hs.alloc args hn hpath) rfl ?_) rfl hacc hext
      exact ⟨hp, hargs, hpath.extend hext, hs.brk_pos, Nat.lt_succ_self _⟩
    | casBottom args ins => exact shows_casBottom hs hat hstep
    | casLink key ins level => exact shows_casLink hs hat hstep
    | casReload key ins level i => exact shows_casReload hs hat hstep
    | casStore key ins level i old => exact shows_casStore hs hat hstep
    | casCheck key ins => exact shows_casCheck hs hat hstep
    | removeHighWater key =>
      cases hstep
      exact Lands.shows (lands_search hs hat) rfl le_rfl
    | removeLevels key item =>
      cases hstep
      obtain ⟨hp, hv⟩ := hat
      obtain ⟨l, hl⟩ := Nat.exists_eq_succ_of_ne_zero (hs.levels item hv).ne'
      rw [hl]
      exact Lands.shows (lands_of_at hs rfl ⟨hp, hv⟩) rfl le_rfl
    | removeNext key item level =>
      cases hstep
      obtain ⟨hp, hv⟩ := hat
      exact Lands.shows (lands_of_at hs rfl ⟨hp, hv, hs.links _ _⟩) rfl le_rfl
    | removeMark key item level next => exact shows_removeMark hs hat hstep
    | removeSwap key item =>
      cases hstep
      obtain ⟨hp, hv⟩ := hat
      have hacc : accept a (.remove r item (h.node item).val)
          = some ((a.write item 0).enter r (.removed (h.node item).val)) :=
        accept_remove.mpr ⟨⟨hp, hs.val_valid hv⟩, rfl⟩
      refine Lands.shows_store (lands_search ((hs.setVal hv _).enter r _) ?_) rfl hacc le_rfl
      exact Function.update_self ..
    | removeDefer item val =>
      cases hstep
      have hp : a.phase r = .removed val := hat
      have hs' : Heap.Holds a { h with handed := h.handed ++ [item] } :=
        ⟨hs.vals, hs.mark, hs.links, hs.levels, hs.fresh, hs.brk_pos⟩
      exact Lands.shows (lands_returned hs' (by rw [hp]; simp [Phase.mayReturn])) rfl le_rfl

/-- **The skiplist simulates the cells.** -/
theorem simulates : Simulates (fun _ => step) Cmd.begins observe Cmd.Asserted
    (fun a h => h.Holds a) (fun p h pc => pc.At p h) Heap.Extends where
  own := by
    intro r h pc i pc' o ho
    have hshown : ∀ o ∈ stores r h pc ++ outcome r pc', o.call = r := by
      intro o ho
      rcases List.mem_append.mp ho with hst | hout
      · cases pc <;> simp only [stores] at hst <;> grind [Obs.call]
      · cases pc' <;> simp only [outcome] at hout <;> grind [Obs.call]
    cases i with
    | call op =>
      rw [List.mem_singleton.mp ho]
      rfl
    | rand z => exact hshown o ho
    | resume => exact hshown o ho
  step := by
    intro r h pc i h' pc' a hs hok hstep hcur
    cases i with
    | call op =>
      have hp : a.phase r = .idle := hcur
      have hacc : accept a (.start r op.kind) = some (a.enter r (.running op.kind)) :=
        accept_start.mpr ⟨hp, rfl⟩
      have hphase : (a.enter r (.running op.kind)).phase r = .running op.kind :=
        Function.update_self ..
      cases pc with
      | returned v =>
        cases op with
        | lookup key =>
          cases hstep
          exact ⟨_, run_cons_eq_some.mpr ⟨_, hacc, rfl⟩, hs.enter r _,
            ⟨hphase, fun _ _ hm => by cases hm⟩, le_rfl⟩
        | cas args =>
          cases hstep
          exact ⟨_, run_cons_eq_some.mpr ⟨_, hacc, rfl⟩, hs.enter r _, ⟨hphase, hok⟩, le_rfl⟩
        | remove key =>
          cases hstep
          exact ⟨_, run_cons_eq_some.mpr ⟨_, hacc, rfl⟩, hs.enter r _, hphase, le_rfl⟩
      | _ => cases hstep
    | rand z => exact shows_step hs rfl hcur hstep
    | resume => exact shows_step hs rfl hcur hstep
  stable := fun _ _ _ _ hext hat => hat.extend hext
  settled := fun _ _ _ old hat => hat.settled old

/-- **No value of the skiplist is lost**: the history of every run is faithful to
what the nodes hold in the end. -/
theorem observed_faithful {es : List (ℕ × Cmd)} {c : Conf Heap Pc}
    (hok : ∀ e ∈ es, e.2.Asserted) (hrun : run sys init es = some c) :
    Faithful (observed es) c.shared.vals := by
  have hinit : Heap.Holds Cells.init init.shared :=
    { vals := by
        funext n
        have hnone : init.shared.vals n = none := if_neg (show ¬(0 < n ∧ n < 1) by omega)
        rw [hnone]
        rfl
      mark := fun _ => rfl
      links := fun _ _ _ hm => nomatch hm
      levels := fun _ _ => show 0 < maxLevels by decide
      fresh := fun _ _ => rfl
      brk_pos := Nat.one_pos }
  obtain ⟨a, hs, hf⟩ := simulates.faithful hinit (fun _ => Or.inl rfl) hok hrun
  rw [hs.vals] at hf
  exact hf

end SkipList

/-! ## Both maps -/

/-- **No lost value under concurrent update and remove.**  Along every run of the
list and along every run of the skiplist, by any threads in any order: the contents
of a node's `val` field form a life, every update and the removal belong to one call
that returns the value it replaced, and every other `remove` that found the node
returns `DOES_NOT_EXIST`. -/
theorem Map.no_value_lost :
    (∀ (es : List (ℕ × LinkedList.Cmd)) (c : Conf LinkedList.Heap LinkedList.Pc),
      (∀ e ∈ es, e.2.Asserted) → run LinkedList.sys LinkedList.init es = some c →
      Faithful (LinkedList.observed es) c.shared.vals) ∧
    (∀ (es : List (ℕ × SkipList.Cmd)) (c : Conf SkipList.Heap SkipList.Pc),
      (∀ e ∈ es, e.2.Asserted) → run SkipList.sys SkipList.init es = some c →
      Faithful (SkipList.observed es) c.shared.vals) :=
  ⟨fun _ _ hok hrun => LinkedList.observed_faithful hok hrun,
    fun _ _ hok hrun => SkipList.observed_faithful hok hrun⟩

/-- Thread 0 inserts a node, and threads 1, 2 and 3 find it; thread 2 marks it, then
thread 1 updates it, then thread 3 loses the race to remove it. -/
def Map.racyList : List (ℕ × LinkedList.Cmd) :=
  let go (t n : ℕ) : List (ℕ × LinkedList.Cmd) := List.replicate n (t, .resume)
  (0, .call (.cas 5 expectDoesNotExist 7)) :: go 0 3
    ++ (1, .call (.cas 5 expectWhatever 9)) :: go 1 4
    ++ (2, .call (.remove 5)) :: go 2 4
    ++ (3, .call (.remove 5)) :: go 3 3 ++ go 2 1 ++ go 1 1 ++ go 3 2 ++ go 2 3

/-- The same race in the skiplist, on a node of two levels. -/
def Map.racySkipList : List (ℕ × SkipList.Cmd) :=
  let go (t n : ℕ) : List (ℕ × SkipList.Cmd) := List.replicate n (t, .resume)
  (0, .call (.cas ⟨5, expectDoesNotExist, 7⟩)) :: (0, .rand 3) :: go 0 9
    ++ (1, .call (.cas ⟨5, expectWhatever, 9⟩)) :: (1, .rand 0) :: go 1 8
    ++ (2, .call (.remove 5)) :: go 2 9
    ++ (3, .call (.remove 5)) :: go 3 9 ++ go 2 4 ++ go 1 1 ++ go 3 4 ++ go 2 9

/-- What is observed in both: the chain `7 → 9 → DOES_NOT_EXIST`. -/
def Map.racyHistory : List Obs :=
  [.start (0, 1) .add, .insert (0, 1) 1 7, .ret (0, 1) 0, .start (1, 1) .put,
    .start (2, 1) .remove, .found (2, 1) 1, .start (3, 1) .remove, .found (3, 1) 1,
    .mark (2, 1) 1, .update (1, 1) 1 7 9, .ret (1, 1) 7, .ret (3, 1) 0,
    .remove (2, 1) 1 9, .ret (2, 1) 9]

/-- An update against a removal, in the list and in the skiplist. -/
theorem Map.no_value_lost_racy :
    (∃ c, run LinkedList.sys LinkedList.init Map.racyList = some c ∧
      c.shared.vals 1 = some 0 ∧ Faithful Map.racyHistory c.shared.vals) ∧
    (∃ c, run SkipList.sys SkipList.init Map.racySkipList = some c ∧
      c.shared.vals 1 = some 0 ∧ Faithful Map.racyHistory c.shared.vals) := by
  constructor
  · have hrun : (run LinkedList.sys LinkedList.init Map.racyList).map (fun c => c.shared.vals 1)
        = some (some 0) := by decide +kernel
    have hobs : LinkedList.observed Map.racyList = Map.racyHistory := by decide +kernel
    obtain ⟨c, hc, hval⟩ := Option.map_eq_some_iff.mp hrun
    refine ⟨c, hc, hval, ?_⟩
    rw [← hobs]
    exact Map.no_value_lost.1 Map.racyList c (by decide +kernel) hc
  · have hrun : (run SkipList.sys SkipList.init Map.racySkipList).map (fun c => c.shared.vals 1)
        = some (some 0) := by decide +kernel
    have hobs : SkipList.observed Map.racySkipList = Map.racyHistory := by decide +kernel
    obtain ⟨c, hc, hval⟩ := Option.map_eq_some_iff.mp hrun
    refine ⟨c, hc, hval, ?_⟩
    rw [← hobs]
    exact Map.no_value_lost.2 Map.racySkipList c (by decide +kernel) hc
