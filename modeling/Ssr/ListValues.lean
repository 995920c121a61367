/-
# The values of the list's nodes

The `val` field of a node is written by the `ll_cas` that inserts it, by the CAS
of an updating `ll_cas` and by the swap of the `ll_remove` that marked the node.
`observe` records these writes along a run; the list simulates the value cells.

* `Heap.Holds` — the memory and the cells say the same;
* `Pc.At` — where a thread stands in its call;
* `simulates` — every step shows what the automaton accepts.
-/
import Ssr.List
import Ssr.ValueCells

open Interleaving Map ValueCells

namespace LinkedList

/-! ## What a step shows -/

/-- What a call is for. -/
def Op.kind : Op → Kind
  | .lookup _ => .read
  | .cas _ expectation _ => if expectation = expectDoesNotExist then .add else .put
  | .remove _ => .remove

/-- `ASSERT((int64_t)new_val > 0)`. -/
def Op.Asserted : Op → Prop
  | .cas _ _ new => 0 < new ∧ new < 2 ^ 63
  | _ => True

instance (op : Op) : Decidable op.Asserted :=
  match op with
  | .cas _ _ new => inferInstanceAs (Decidable (0 < new ∧ new < 2 ^ 63))
  | .lookup _ => inferInstanceAs (Decidable True)
  | .remove _ => inferInstanceAs (Decidable True)

/-- The call that a step starts meets the assertion. -/
def Cmd.Asserted : Cmd → Prop
  | .call op => op.Asserted
  | .resume => True

instance (i : Cmd) : Decidable i.Asserted :=
  match i with
  | .call op => inferInstanceAs (Decidable op.Asserted)
  | .resume => inferInstanceAs (Decidable True)

/-- The step starts a call. -/
def Cmd.begins : Cmd → Bool
  | .call _ => true
  | .resume => false

/-- What the step stores: the value of a new node, a CAS of a value, a mark, or the
swap of a value. -/
def stores (r : ValueCells.Call) (h : Heap) : Pc → List Obs
  | .casAlloc _ new _ _ => [.insert r h.brk new]
  | .casUpdate _ expectation new item old =>
    if old ≠ doesNotExist ∧ expectation ≠ expectDoesNotExist ∧ (h.node item).val = old then
      [.update r item old new]
    else []
  | .removeMark _ item next =>
    if (h.node item).next = next ∧ next.mark = false then [.mark r item] else []
  | .removeSwap _ item _ => [.remove r item (h.node item).val]
  | _ => []

/-- Where the step leads: a return, or the node that a `ll_remove` found. -/
def outcome (r : ValueCells.Call) : Pc → List Obs
  | .returned v => [.ret r v]
  | .removeNext _ item => [.found r item]
  | _ => []

/-- What one step shows of its call. -/
def observe (r : ValueCells.Call) (h : Heap) (pc : Pc) (i : Cmd) (pc' : Pc) : List Obs :=
  match i with
  | .call op => [.start r op.kind]
  | .resume => stores r h pc ++ outcome r pc'

/-- What is observed along a run from the empty list. -/
def observed (es : List (ℕ × Cmd)) : List Obs :=
  history step Cmd.begins observe (fun _ => 0) init es

/-- What the `val` field of each allocated node holds. -/
def Heap.vals (h : Heap) (n : ℕ) : Option ℕ :=
  if 0 < n ∧ n < h.brk then some (h.node n).val else none

/-! ## Memory and cells -/

/-- An allocated node other than the sentinel. -/
def Heap.Valid (h : Heap) (n : ℕ) : Prop := 0 < n ∧ n < h.brk

/-- The memory and the cells say the same: a node is marked when a call marked its
cell. -/
structure Heap.Holds (a : Cells) (h : Heap) : Prop where
  vals : a.val = h.vals
  mark : ∀ n, (h.node n).next.mark = (a.owner n).isSome
  links : ∀ n, ∀ m ∈ (h.node n).next.node, h.Valid m
  fresh : ∀ n, h.brk ≤ n → a.owner n = none
  brk_pos : 0 < h.brk

namespace Heap

variable {a : Cells} {h : Heap}

theorem Holds.enter (hs : h.Holds a) (r : ValueCells.Call) (p : Phase) : h.Holds (a.enter r p) :=
  ⟨hs.vals, hs.mark, hs.links, hs.fresh, hs.brk_pos⟩

/-- A store into `next` that keeps the mark. -/
theorem Holds.setNext (hs : h.Holds a) {n : ℕ} {l : Link} (hmark : l.mark = (h.node n).next.mark)
    (hl : ∀ m ∈ l.node, h.Valid m) : (h.setNext n l).Holds a where
  vals := by
    rw [hs.vals]
    funext m
    by_cases hm : m = n
    · subst hm
      simp [Heap.vals, Heap.setNext]
    · simp [Heap.vals, Heap.setNext, hm]
  mark := by
    intro m
    rw [← hs.mark m]
    by_cases hm : m = n
    · subst hm
      simpa [Heap.setNext] using hmark
    · simp [Heap.setNext, hm]
  links := by
    intro m
    by_cases hm : m = n
    · subst hm
      simpa [Heap.setNext, Heap.Valid] using hl
    · simpa [Heap.setNext, hm, Heap.Valid] using hs.links m
  fresh := hs.fresh
  brk_pos := hs.brk_pos

/-- The store that marks a node. -/
theorem Holds.claim (hs : h.Holds a) (r : ValueCells.Call) {n : ℕ} (hn : h.Valid n) {l : Link}
    (hmark : l.mark = true) (hl : ∀ m ∈ l.node, h.Valid m) : (h.setNext n l).Holds (a.claim r n) where
  vals := by
    rw [Cells.claim_val, hs.vals]
    funext m
    by_cases hm : m = n
    · subst hm
      simp [Heap.vals, Heap.setNext]
    · simp [Heap.vals, Heap.setNext, hm]
  mark := by
    intro m
    by_cases hm : m = n
    · subst hm
      simpa [Heap.setNext] using hmark
    · simpa [Heap.setNext, hm] using hs.mark m
  links := by
    intro m
    by_cases hm : m = n
    · subst hm
      simpa [Heap.setNext, Heap.Valid] using hl
    · simpa [Heap.setNext, hm, Heap.Valid] using hs.links m
  fresh := by
    intro m hm
    have hne : m ≠ n := (lt_of_lt_of_le hn.2 hm).ne'
    simpa [hne] using hs.fresh m hm
  brk_pos := hs.brk_pos

/-- A store into the `val` field of an allocated node. -/
theorem Holds.setVal (hs : h.Holds a) {n : ℕ} (hn : h.Valid n) (v : ℕ) :
    (h.setVal n v).Holds (a.write n v) where
  vals := by
    rw [Cells.write_val, hs.vals]
    funext m
    by_cases hm : m = n
    · subst hm
      simp [Heap.vals, Heap.setVal, hn.1, hn.2]
    · simp [Heap.vals, Heap.setVal, hm]
  mark := by
    intro m
    by_cases hm : m = n
    · subst hm
      simpa [Heap.setVal] using hs.mark m
    · simpa [Heap.setVal, hm] using hs.mark m
  links := by
    intro m
    by_cases hm : m = n
    · subst hm
      simpa [Heap.setVal, Heap.Valid] using hs.links m
    · simpa [Heap.setVal, hm, Heap.Valid] using hs.links m
  fresh := hs.fresh
  brk_pos := hs.brk_pos

/-- `node_alloc` fills a fresh cell. -/
theorem Holds.alloc (hs : h.Holds a) (t key v : ℕ) {item : Option ℕ} (hitem : ∀ m ∈ item, h.Valid m) :
    (h.alloc t ⟨key, v, ⟨item, false⟩⟩).Holds (a.write h.brk v) where
  vals := by
    rw [Cells.write_val, hs.vals]
    funext m
    by_cases hm : m = h.brk
    · subst hm
      simp [Heap.vals, Heap.alloc, hs.brk_pos]
    · have hlt : m < h.brk + 1 ↔ m < h.brk := by omega
      simp [Heap.vals, Heap.alloc, hm, hlt]
  mark := by
    intro m
    by_cases hm : m = h.brk
    · subst hm
      simp [Heap.alloc, hs.fresh]
    · simpa [Heap.alloc, hm] using hs.mark m
  links := by
    intro m i hi
    by_cases hm : m = h.brk
    · subst hm
      have hv := hitem i (by simpa [Heap.alloc] using hi)
      exact ⟨hv.1, Nat.lt_succ_of_lt hv.2⟩
    · have hv := hs.links m i (by simpa [Heap.alloc, hm] using hi)
      exact ⟨hv.1, Nat.lt_succ_of_lt hv.2⟩
  fresh := fun m hm => hs.fresh m (Nat.le_of_succ_le hm)
  brk_pos := Nat.succ_pos _

/-- The cell of an allocated node holds its value. -/
theorem Holds.val_valid (hs : h.Holds a) {n : ℕ} (hn : h.Valid n) :
    a.val n = some (h.node n).val := by
  rw [hs.vals]
  simp [Heap.vals, hn.1, hn.2]

theorem Holds.val_brk (hs : h.Holds a) : a.val h.brk = none := by
  rw [hs.vals]
  simp [Heap.vals]

end Heap

/-! ## Where a thread stands in its call -/

/-- The phase of the call of a thread that stands at a given place, and the nodes
that it knows there. -/
def Pc.At (p : Phase) (h : Heap) : Pc → Prop
  | .returned v => p = .idle ∨ p = .returned v
  | .findHead op => p = .running op.kind ∧ op.Asserted
  | .findNext op _ item => p = .running op.kind ∧ op.Asserted ∧ h.Valid item
  | .findKey op _ item next =>
    p = .running op.kind ∧ op.Asserted ∧ h.Valid item ∧ ∀ m ∈ next.node, h.Valid m
  | .findSkip op _ item => p = .running op.kind ∧ op.Asserted ∧ h.Valid item
  | .findUnlink op _ item next =>
    p = .running op.kind ∧ op.Asserted ∧ h.Valid item ∧ ∀ m ∈ next.node, h.Valid m
  | .findReload op _ item _ => p = .running op.kind ∧ op.Asserted ∧ ∀ m ∈ item, h.Valid m
  | .findDefer op _ item next _ =>
    p = .running op.kind ∧ op.Asserted ∧ (∀ m ∈ item, h.Valid m) ∧ ∀ m ∈ next.node, h.Valid m
  | .lookupVal _ => p = .running .read
  | .casAlloc op new _ item =>
    p = .running op.kind ∧ op.Asserted ∧ (∃ expectation, op = .cas op.key expectation new) ∧
      ∀ m ∈ item, h.Valid m
  | .casLink op _ _ newItem => p = .running op.kind ∧ op.Asserted ∧ op.kind ≠ .read ∧
      op.kind ≠ .remove ∧ h.Valid newItem
  | .casVal op expectation new item =>
    p = .running op.kind ∧ op.Asserted ∧ op = .cas op.key expectation new ∧ h.Valid item
  | .casUpdate op expectation new item _ =>
    p = .running op.kind ∧ op.Asserted ∧ op = .cas op.key expectation new ∧ h.Valid item
  | .removeNext _ item => p = .found item ∧ h.Valid item
  | .removeMark _ item next => p = .found item ∧ h.Valid item ∧ ∀ m ∈ next.node, h.Valid m
  | .removeSwap _ item next => p = .marked item ∧ h.Valid item ∧ ∀ m ∈ next.node, h.Valid m
  | .removeUnlink _ _ next val => p = .removed val ∧ ∀ m ∈ next.node, h.Valid m
  | .removeDefer _ val => p = .removed val

/-- What a step of another thread leaves alone. -/
def Heap.Extends (h h' : Heap) : Prop := h.brk ≤ h'.brk

theorem Heap.Valid.extend {h h' : Heap} {n : ℕ} (hn : h.Valid n) (hext : h.Extends h') :
    h'.Valid n :=
  ⟨hn.1, lt_of_lt_of_le hn.2 hext⟩

theorem Pc.At.extend {p : Phase} {h h' : Heap} {pc : Pc} (hext : h.Extends h') (hat : pc.At p h) :
    pc.At p h' := by
  have hv : ∀ {n}, h.Valid n → h'.Valid n := fun hn => hn.extend hext
  cases pc <;> simp only [Pc.At] at hat ⊢ <;> grind

theorem Pc.At.settled {p : Phase} {h : Heap} {pc : Pc} (hat : pc.At p h) (old : ℕ) :
    p ≠ .updated old := by
  cases pc <;> simp only [Pc.At] at hat <;> grind

/-! ## The simulation -/

section Landing

variable {r : ValueCells.Call} {a : Cells} {h : Heap}

/-- The call of `r` can be observed to go on to `pc`. -/
def Lands (r : ValueCells.Call) (a : Cells) (h : Heap) (pc : Pc) : Prop :=
  ∃ a', run accept a (outcome r pc) = some a' ∧ h.Holds a' ∧ pc.At (a'.phase r) h

theorem lands_of_at {pc : Pc} (hs : h.Holds a) (hout : outcome r pc = [])
    (hat : pc.At (a.phase r) h) : Lands r a h pc :=
  ⟨a, by rw [hout]; rfl, hs, hat⟩

theorem lands_returned {v : ℕ} (hs : h.Holds a) (hp : (a.phase r).mayReturn v = true) :
    Lands r a h (.returned v) := by
  refine ⟨a.enter r (.returned v), ?_, hs.enter r _, ?_⟩
  · exact run_cons_eq_some.mpr ⟨_, accept_ret.mpr ⟨hp, rfl⟩, rfl⟩
  · exact Or.inr (Function.update_self ..)

theorem lands_found {op : Op} {pred item : ℕ} (hs : h.Holds a)
    (hp : a.phase r = .running op.kind) (hop : op.Asserted) (hv : h.Valid item) :
    Lands r a h (found op pred item) := by
  cases op with
  | lookup key => exact lands_of_at hs rfl hp
  | cas key expectation new => exact lands_of_at hs rfl ⟨hp, hop, rfl, hv⟩
  | remove key =>
    refine ⟨a.enter r (.found item), ?_, hs.enter r _, ?_⟩
    · refine run_cons_eq_some.mpr ⟨_, accept_found.mpr ⟨⟨hp, ?_⟩, rfl⟩, rfl⟩
      rw [hs.val_valid hv]
      simp
    · exact ⟨Function.update_self .., hv⟩

theorem lands_notFound {op : Op} {pred : ℕ} {item : Option ℕ} (hs : h.Holds a)
    (hp : a.phase r = .running op.kind) (hop : op.Asserted) (hv : ∀ m ∈ item, h.Valid m) :
    Lands r a h (notFound op pred item) := by
  cases op with
  | lookup key =>
    apply lands_returned hs
    rw [hp]
    rfl
  | cas key expectation new =>
    simp only [notFound]
    split_ifs
    · apply lands_returned hs
      rw [hp]
      simp only [Op.kind]
      split_ifs <;> rfl
    · exact lands_of_at hs rfl ⟨hp, hop, ⟨expectation, rfl⟩, hv⟩
  | remove key =>
    apply lands_returned hs
    rw [hp]
    rfl

theorem lands_visit {op : Op} {pred : ℕ} {item : Option ℕ} (hs : h.Holds a)
    (hp : a.phase r = .running op.kind) (hop : op.Asserted) (hv : ∀ m ∈ item, h.Valid m) :
    Lands r a h (visit op pred item) := by
  cases item with
  | none => exact lands_notFound hs hp hop hv
  | some i => exact lands_of_at hs rfl ⟨hp, hop, hv i rfl⟩

theorem lands_examine {op : Op} {pred item : ℕ} {next : Link} (hs : h.Holds a)
    (hp : a.phase r = .running op.kind) (hop : op.Asserted) (hv : h.Valid item)
    (hnext : ∀ m ∈ next.node, h.Valid m) : Lands r a h (examine op pred item next) := by
  unfold examine
  split_ifs
  · exact lands_of_at hs rfl ⟨hp, hop, hv, hnext⟩
  · exact lands_of_at hs rfl ⟨hp, hop, hv⟩
  · exact lands_of_at hs rfl ⟨hp, hop, hv, hnext⟩

end Landing

/-- What a step of call `r` shows is accepted, and the cells go with the memory. -/
abbrev Follows (r : ValueCells.Call) (a : Cells) (h : Heap) (pc : Pc) (h' : Heap) (pc' : Pc) :
    Prop :=
  ∃ a', run accept a (stores r h pc ++ outcome r pc') = some a' ∧ h'.Holds a'
    ∧ pc'.At (a'.phase r) h' ∧ h.Extends h'

/-- A step that stores nothing and leaves the memory as it is. -/
theorem simulates_quiet {r : ValueCells.Call} {a : Cells} {h : Heap} {pc pc' : Pc}
    (hst : stores r h pc = []) (hlands : Lands r a h pc') :
    Follows r a h pc h pc' := by
  obtain ⟨a', hrun, hs, hat⟩ := hlands
  exact ⟨a', by rw [hst, List.nil_append]; exact hrun, hs, hat, le_rfl⟩

/-- `find_pred` compares the keys. -/
theorem simulates_findKey {op : Op} {pred item : ℕ} {next : Link}
    {r : ValueCells.Call} {a : Cells} {h h' : Heap} {pc' : Pc} (hs : h.Holds a)
    (hat : (Pc.findKey op pred item next).At (a.phase r) h)
    (hstep : step r.1 h (.findKey op pred item next) .resume = some (h', pc')) :
    Follows r a h (.findKey op pred item next) h' pc' := by
  obtain ⟨hp, hop, hv, hnext⟩ := hat
  simp only [step] at hstep
  split_ifs at hstep <;> cases hstep
  · exact simulates_quiet rfl (lands_found hs hp hop hv)
  · exact simulates_quiet rfl (lands_notFound hs hp hop (by rintro m ⟨⟩; exact hv))
  · exact simulates_quiet rfl (lands_visit hs hp hop hnext)

/-- `find_pred` unlinks a marked node. -/
theorem simulates_findUnlink {op : Op} {pred item : ℕ} {next : Link}
    {r : ValueCells.Call} {a : Cells} {h h' : Heap} {pc' : Pc} (hs : h.Holds a)
    (hat : (Pc.findUnlink op pred item next).At (a.phase r) h)
    (hstep : step r.1 h (.findUnlink op pred item next) .resume = some (h', pc')) :
    Follows r a h (.findUnlink op pred item next) h' pc' := by
  obtain ⟨hp, hop, hv, hnext⟩ := hat
  simp only [step] at hstep
  split_ifs at hstep with hother hmark <;> cases hstep
  · have hs' := hs.setNext (l := ⟨next.node, false⟩) (by rw [hother]) hnext
    exact ⟨a, rfl, ⟨hs'.vals, hs'.mark, hs'.links, hs'.fresh, hs'.brk_pos⟩, ⟨hp, hop, hnext⟩,
      le_rfl⟩
  · exact simulates_quiet rfl (lands_of_at hs rfl ⟨hp, hop⟩)
  · exact simulates_quiet rfl (lands_visit hs hp hop (hs.links pred))

/-- `find_pred` goes on at the node that it finds now. -/
theorem simulates_findReload {op : Op} {pred : ℕ} {item : Option ℕ} {old : ℕ}
    {r : ValueCells.Call} {a : Cells} {h h' : Heap} {pc' : Pc} (hs : h.Holds a)
    (hat : (Pc.findReload op pred item old).At (a.phase r) h)
    (hstep : step r.1 h (.findReload op pred item old) .resume = some (h', pc')) :
    Follows r a h (.findReload op pred item old) h' pc' := by
  obtain ⟨hp, hop, hv⟩ := hat
  simp only [step] at hstep
  split at hstep <;> cases hstep
  · next i => exact simulates_quiet rfl (lands_of_at hs rfl ⟨hp, hop, hv, hs.links i⟩)
  · exact simulates_quiet rfl (lands_of_at hs rfl ⟨hp, hop, hv, fun m hm => absurd hm (Option.not_mem_none m)⟩)

/-- The node that was unlinked is deferred. -/
theorem simulates_findDefer {op : Op} {pred : ℕ} {item : Option ℕ} {next : Link} {old : ℕ}
    {r : ValueCells.Call} {a : Cells} {h h' : Heap} {pc' : Pc} (hs : h.Holds a)
    (hat : (Pc.findDefer op pred item next old).At (a.phase r) h)
    (hstep : step r.1 h (.findDefer op pred item next old) .resume = some (h', pc')) :
    Follows r a h (.findDefer op pred item next old) h' pc' := by
  obtain ⟨hp, hop, hv, hnext⟩ := hat
  have hs' : (h.hand r.1 old).Holds a := ⟨hs.vals, hs.mark, hs.links, hs.fresh, hs.brk_pos⟩
  simp only [step] at hstep
  split at hstep <;> cases hstep
  · next i =>
    obtain ⟨a', hrun, hs'', hat'⟩ := lands_examine hs' hp hop (hv i rfl) hnext
    exact ⟨a', hrun, hs'', hat', le_rfl⟩
  · obtain ⟨a', hrun, hs'', hat'⟩ := lands_notFound hs' hp hop hv
    exact ⟨a', hrun, hs'', hat', le_rfl⟩

/-- `ll_lookup` loads the value. -/
theorem simulates_lookupVal {item : ℕ} {r : ValueCells.Call} {a : Cells} {h h' : Heap} {pc' : Pc}
    (hs : h.Holds a) (hat : (Pc.lookupVal item).At (a.phase r) h)
    (hstep : step r.1 h (.lookupVal item) .resume = some (h', pc')) :
    Follows r a h (.lookupVal item) h' pc' := by
  cases hstep
  apply simulates_quiet rfl
  apply lands_returned hs
  rw [show a.phase r = _ from hat]
  rfl

/-- `ll_cas` allocates a node. -/
theorem simulates_casAlloc {op : Op} {new pred : ℕ} {item : Option ℕ}
    {r : ValueCells.Call} {a : Cells} {h h' : Heap} {pc' : Pc} (hs : h.Holds a)
    (hat : (Pc.casAlloc op new pred item).At (a.phase r) h)
    (hstep : step r.1 h (.casAlloc op new pred item) .resume = some (h', pc')) :
    Follows r a h (.casAlloc op new pred item) h' pc' := by
  cases hstep
  obtain ⟨hp, hop, ⟨expectation, hcas⟩, hv⟩ := hat
  have hnew : new ≠ 0 := by
    rw [hcas] at hop
    exact hop.1.ne'
  have hkind : op.kind = .add ∨ op.kind = .put := by
    rw [hcas]
    simp only [Op.kind]
    split_ifs
    · exact Or.inl rfl
    · exact Or.inr rfl
  have hacc : accept a (.insert r h.brk new) = some (a.write h.brk new) := by
    refine accept_insert.mpr ⟨⟨?_, hs.val_brk, hnew⟩, rfl⟩
    rcases hkind with hk | hk <;> rw [hp, hk] <;> simp
  refine ⟨a.write h.brk new, run_cons_eq_some.mpr ⟨_, hacc, rfl⟩, hs.alloc _ _ _ hv, ?_,
    Nat.le_succ _⟩
  refine ⟨hp, hop, ?_, ?_, hs.brk_pos, Nat.lt_succ_self _⟩ <;>
    rcases hkind with hk | hk <;> rw [hk] <;> simp

/-- The CAS that links the new node. -/
theorem simulates_casLink {op : Op} {pred : ℕ} {next : Option ℕ} {newItem : ℕ}
    {r : ValueCells.Call} {a : Cells} {h h' : Heap} {pc' : Pc} (hs : h.Holds a)
    (hat : (Pc.casLink op pred next newItem).At (a.phase r) h)
    (hstep : step r.1 h (.casLink op pred next newItem) .resume = some (h', pc')) :
    Follows r a h (.casLink op pred next newItem) h' pc' := by
  obtain ⟨hp, hop, hread, hremove, hv⟩ := hat
  simp only [step] at hstep
  split_ifs at hstep with hnext <;> cases hstep
  · have hs' := hs.setNext (n := pred) (l := ⟨some newItem, false⟩) (by rw [hnext])
      (by rintro m ⟨⟩; exact hv)
    have hs'' : (h.link pred newItem).Holds a :=
      ⟨hs'.vals, hs'.mark, hs'.links, hs'.fresh, hs'.brk_pos⟩
    obtain ⟨a', hrun, hh, hat'⟩ := lands_returned (r := r) (v := doesNotExist) hs'' (by
      rw [hp]
      cases hk : op.kind <;> simp_all [Phase.mayReturn, doesNotExist])
    exact ⟨a', hrun, hh, hat', le_rfl⟩
  · exact simulates_quiet rfl (lands_of_at hs rfl ⟨hp, hop⟩)

/-- The CAS on the value of the node that is there. -/
theorem simulates_casUpdate {op : Op} {expectation new item old : ℕ}
    {r : ValueCells.Call} {a : Cells} {h h' : Heap} {pc' : Pc} (hs : h.Holds a)
    (hat : (Pc.casUpdate op expectation new item old).At (a.phase r) h)
    (hstep : step r.1 h (.casUpdate op expectation new item old) .resume = some (h', pc')) :
    Follows r a h (.casUpdate op expectation new item old) h' pc' := by
  obtain ⟨hp, hop, hcas, hv⟩ := hat
  simp only [step] at hstep
  split_ifs at hstep with hold hexp hval <;> cases hstep
  · exact simulates_quiet (by simp [stores, hold]) (lands_of_at hs rfl ⟨hp, hop⟩)
  · apply simulates_quiet (by simp [stores, hexp])
    apply lands_returned hs
    have hkind : op.kind = .add := by
      rw [hcas]
      exact if_pos hexp
    rw [hp, hkind]
    rfl
  · subst hval
    have hkind : op.kind = .put := by
      rw [hcas]
      exact if_neg hexp
    have hnew : new ≠ 0 := by
      rw [hcas] at hop
      exact hop.1.ne'
    have hupd : accept a (.update r item (h.node item).val new)
        = some ((a.write item new).enter r (.updated (h.node item).val)) :=
      accept_update.mpr ⟨⟨by rw [hp, hkind], hs.val_valid hv, hold, hnew⟩, rfl⟩
    have hs' := (hs.setVal hv new).enter r (.updated (h.node item).val)
    obtain ⟨a', hrun, hh, hat'⟩ := lands_returned (r := r) (v := (h.node item).val) hs' (by
      rw [Cells.enter_phase, Function.update_self]
      simp [Phase.mayReturn])
    have hst : stores r h (.casUpdate op expectation new item (h.node item).val)
        = [.update r item (h.node item).val new] := if_pos ⟨hold, hexp, rfl⟩
    rw [Follows, hst]
    exact ⟨a', run_cons_eq_some.mpr ⟨_, hupd, hrun⟩, hh, hat', le_rfl⟩
  · exact simulates_quiet (by simp [stores, hval]) (lands_of_at hs rfl ⟨hp, hop, hcas, hv⟩)

/-- The CAS that marks the node. -/
theorem simulates_removeMark {pred item : ℕ} {next : Link}
    {r : ValueCells.Call} {a : Cells} {h h' : Heap} {pc' : Pc} (hs : h.Holds a)
    (hat : (Pc.removeMark pred item next).At (a.phase r) h)
    (hstep : step r.1 h (.removeMark pred item next) .resume = some (h', pc')) :
    Follows r a h (.removeMark pred item next) h' pc' := by
  obtain ⟨hp, hv, hnext⟩ := hat
  have hzero : Lands r a h (.returned doesNotExist) := lands_returned hs (by
    rw [hp]
    rfl)
  simp only [step] at hstep
  split_ifs at hstep with heq hmark hmark <;> cases hstep
  · -- the node was marked already: the CAS stores what is there
    have hst : stores r h (.removeMark pred item next) = [] := by
      simp [stores, ← heq, hmark]
    have hs' := hs.setNext (n := item) (l := ⟨next.node, true⟩) hmark.symm hnext
    obtain ⟨a', hrun, hh, hat'⟩ := lands_returned (r := r) (v := doesNotExist) hs' (by
      rw [hp]
      rfl)
    rw [Follows, hst]
    exact ⟨a', hrun, hh, hat', le_rfl⟩
  · have hst : stores r h (.removeMark pred item next) = [.mark r item] := by
      simp [stores, ← heq, hmark]
    have hown : a.owner item = none := by
      have := hs.mark item
      rw [Bool.eq_false_iff.mpr hmark] at this
      exact Option.isNone_iff_eq_none.mp (by simpa using this.symm)
    have hacc : accept a (.mark r item) = some ((a.claim r item).enter r (.marked item)) :=
      accept_mark.mpr ⟨⟨hp, hown⟩, rfl⟩
    rw [Follows, hst]
    refine ⟨_, run_cons_eq_some.mpr ⟨_, hacc, rfl⟩, ?_, ?_, le_rfl⟩
    · exact (hs.claim r hv (l := ⟨next.node, true⟩) rfl hnext).enter r _
    · exact ⟨Function.update_self .., hv, hnext⟩
  · exact simulates_quiet (by simp [stores, heq]) hzero
  · exact simulates_quiet (by simp [stores, heq]) (lands_of_at hs rfl ⟨hp, hv, hs.links item⟩)

/-- `ll_remove` swaps the value out. -/
theorem simulates_removeSwap {pred item : ℕ} {next : Link}
    {r : ValueCells.Call} {a : Cells} {h h' : Heap} {pc' : Pc} (hs : h.Holds a)
    (hat : (Pc.removeSwap pred item next).At (a.phase r) h)
    (hstep : step r.1 h (.removeSwap pred item next) .resume = some (h', pc')) :
    Follows r a h (.removeSwap pred item next) h' pc' := by
  cases hstep
  obtain ⟨hp, hv, hnext⟩ := hat
  have hacc : accept a (.remove r item (h.node item).val)
      = some ((a.write item 0).enter r (.removed (h.node item).val)) :=
    accept_remove.mpr ⟨⟨hp, hs.val_valid hv⟩, rfl⟩
  refine ⟨_, run_cons_eq_some.mpr ⟨_, hacc, rfl⟩, (hs.setVal hv _).enter r _, ?_, le_rfl⟩
  exact ⟨Function.update_self .., hnext⟩

/-- The CAS that unlinks the node. -/
theorem simulates_removeUnlink {pred item : ℕ} {next : Link} {val : ℕ}
    {r : ValueCells.Call} {a : Cells} {h h' : Heap} {pc' : Pc} (hs : h.Holds a)
    (hat : (Pc.removeUnlink pred item next val).At (a.phase r) h)
    (hstep : step r.1 h (.removeUnlink pred item next val) .resume = some (h', pc')) :
    Follows r a h (.removeUnlink pred item next val) h' pc' := by
  obtain ⟨hp, hnext⟩ := hat
  simp only [step] at hstep
  split_ifs at hstep with hpred <;> cases hstep
  · have hs' := hs.setNext (n := pred) (l := ⟨next.node, false⟩) (by rw [hpred]) hnext
    exact ⟨a, rfl, ⟨hs'.vals, hs'.mark, hs'.links, hs'.fresh, hs'.brk_pos⟩, hp, le_rfl⟩
  · apply simulates_quiet rfl
    apply lands_returned hs
    rw [hp]
    simp [Phase.mayReturn]

/-- The node is deferred. -/
theorem simulates_removeDefer {item val : ℕ}
    {r : ValueCells.Call} {a : Cells} {h h' : Heap} {pc' : Pc} (hs : h.Holds a)
    (hat : (Pc.removeDefer item val).At (a.phase r) h)
    (hstep : step r.1 h (.removeDefer item val) .resume = some (h', pc')) :
    Follows r a h (.removeDefer item val) h' pc' := by
  cases hstep
  have hs' : (h.hand r.1 item).Holds a := ⟨hs.vals, hs.mark, hs.links, hs.fresh, hs.brk_pos⟩
  obtain ⟨a', hrun, hh, hat'⟩ := lands_returned (r := r) (v := val) hs' (by
    rw [show a.phase r = _ from hat]
    simp [Phase.mayReturn])
  exact ⟨a', hrun, hh, hat', le_rfl⟩

/-- What a step shows and where it leads. -/
theorem simulates_resume {r : ValueCells.Call} {a : Cells} {h h' : Heap} {pc pc' : Pc}
    (hs : h.Holds a) (hat : pc.At (a.phase r) h) (hstep : step r.1 h pc .resume = some (h', pc')) :
    Follows r a h pc h' pc' := by
  cases pc with
  | returned v =>
    rw [step_returned] at hstep
    cases hstep
  | findHead op =>
    cases hstep
    obtain ⟨hp, hop⟩ := hat
    exact simulates_quiet rfl (lands_visit hs hp hop (hs.links 0))
  | findNext op pred item =>
    cases hstep
    obtain ⟨hp, hop, hv⟩ := hat
    exact simulates_quiet rfl (lands_examine hs hp hop hv (hs.links item))
  | findSkip op pred item =>
    cases hstep
    obtain ⟨hp, hop, hv⟩ := hat
    exact simulates_quiet rfl (lands_visit hs hp hop (hs.links item))
  | findKey op pred item next => exact simulates_findKey hs hat hstep
  | findUnlink op pred item next => exact simulates_findUnlink hs hat hstep
  | findReload op pred item old => exact simulates_findReload hs hat hstep
  | findDefer op pred item next old => exact simulates_findDefer hs hat hstep
  | lookupVal item => exact simulates_lookupVal hs hat hstep
  | casAlloc op new pred item => exact simulates_casAlloc hs hat hstep
  | casLink op pred next newItem => exact simulates_casLink hs hat hstep
  | casVal op expectation new item =>
    cases hstep
    exact simulates_quiet rfl (lands_of_at hs rfl hat)
  | casUpdate op expectation new item old => exact simulates_casUpdate hs hat hstep
  | removeNext pred item =>
    cases hstep
    obtain ⟨hp, hv⟩ := hat
    exact simulates_quiet rfl (lands_of_at hs rfl ⟨hp, hv, hs.links item⟩)
  | removeMark pred item next => exact simulates_removeMark hs hat hstep
  | removeSwap pred item next => exact simulates_removeSwap hs hat hstep
  | removeUnlink pred item next val => exact simulates_removeUnlink hs hat hstep
  | removeDefer item val => exact simulates_removeDefer hs hat hstep

/-- **The list simulates the cells.** -/
theorem simulates : Simulates step Cmd.begins observe Cmd.Asserted
    (fun a h => h.Holds a) (fun p h pc => pc.At p h) Heap.Extends where
  own := by
    intro r h pc i pc' o ho
    cases i with
    | call op =>
      rw [List.mem_singleton.mp ho]
      rfl
    | resume =>
      rcases List.mem_append.mp ho with hst | hout
      · cases pc <;> simp only [stores] at hst <;> grind [Obs.call]
      · cases pc' <;> simp only [outcome] at hout <;> grind [Obs.call]
  step := by
    intro r h pc i h' pc' a hs hok hstep hcur
    cases i with
    | call op =>
      cases pc with
      | returned v =>
        cases hstep
        have hp : a.phase r = .idle := hcur
        refine ⟨a.enter r (.running op.kind), ?_, hs.enter r _, ?_, le_rfl⟩
        · exact run_cons_eq_some.mpr ⟨_, accept_start.mpr ⟨hp, rfl⟩, rfl⟩
        · exact ⟨Function.update_self .., hok⟩
      | _ => cases hstep
    | resume => exact simulates_resume hs hcur hstep
  stable := fun _ _ _ _ hext hat => hat.extend hext
  settled := fun _ _ _ old hat => hat.settled old

/-- **No value of the list is lost**: the history of every run is faithful to what
the nodes hold in the end. -/
theorem observed_faithful {es : List (ℕ × Cmd)} {c : Conf Heap Pc} (hok : ∀ e ∈ es, e.2.Asserted)
    (hrun : run sys init es = some c) : Faithful (observed es) c.shared.vals := by
  have hinit : Heap.Holds Cells.init init.shared :=
    { vals := by
        funext n
        have hnone : init.shared.vals n = none := if_neg (show ¬(0 < n ∧ n < 1) by omega)
        rw [hnone]
        rfl
      mark := fun _ => rfl
      links := fun _ _ hm => nomatch hm
      fresh := fun _ _ => rfl
      brk_pos := Nat.one_pos }
  obtain ⟨a, hs, hf⟩ := simulates.faithful hinit (fun _ => Or.inl rfl) hok hrun
  rw [hs.vals] at hf
  exact hf

end LinkedList
