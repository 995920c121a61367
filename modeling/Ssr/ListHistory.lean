/-
# The calls of the list and their history

`ll_lookup`, `ll_cas` and `ll_remove` as operations of a map, whose entries are the nodes: a
node is put in by the CAS that links it, is claimed by the CAS that marks it, and is emptied by
the swap of its value.

* `Heap.cells` — the nodes as cells;
* `Pc.Stands` — what a thread knows of the call it is in;
* `Regards` — what it relies on, and `Pc.Stands.stable`: it knows it as long as it stands there.
-/
import Ssr.ListStructure
import Ssr.ListValues
import Ssr.LinkedChain
import Ssr.CellCalls

open Interleaving Map Linearizability ClaimedCells

namespace LinkedList

/-! ## The operations -/

/-- When `ll_cas` writes: an expected value is not compared. -/
def writeMode (expectation : ℕ) : Mode :=
  if expectation = expectDoesNotExist then .add
  else if expectation = expectWhatever then .put else .replace

/-- The call as an operation of a map. -/
def Op.onMap : Op → ClaimedCells.Op ℕ
  | .lookup key => .get key
  | .cas key expectation new => .write (writeMode expectation) key new
  | .remove key => .remove key

@[simp] theorem Op.onMap_key (op : Op) : op.onMap.key = op.key := by
  cases op <;> rfl

/-- The operation that a step calls. -/
def Cmd.called : Cmd → Option (ClaimedCells.Op ℕ)
  | .call op => some op.onMap
  | .resume => none

/-- What the thread has returned. -/
def Pc.answer : Pc → Option ℕ
  | .returned val => some val
  | _ => none

theorem writeMode_add {expectation : ℕ} :
    writeMode expectation = .add ↔ expectation = expectDoesNotExist := by
  unfold writeMode
  split_ifs <;> simp_all

theorem writeMode_replace {expectation : ℕ} : writeMode expectation = .replace
    ↔ expectation ≠ expectDoesNotExist ∧ expectation ≠ expectWhatever := by
  unfold writeMode
  split_ifs <;> simp_all

/-! ## The nodes as cells -/

/-- The nodes: those in the list that are not marked are live. -/
def Heap.cells (h : Heap) : View ℕ where
  key n := (h.node n).key
  val n := (h.node n).val
  live n := n ∈ h.linked ∧ (h.node n).next.mark = false

/-- The order explains the history and the list. -/
structure Explained (h : Heap) (g : Record (ClaimedCells.Op ℕ) ℕ) (D : Decisions ℕ) : Prop where
  good : Good h.cells g.events D
  numbered : g.Numbered
  marked : ∀ n, D.claim n ≠ none ↔ n ∈ h.linked ∧ (h.node n).next.mark = true

/-- The node is reached from both. -/
def Leads (h : Heap) (pred item n : ℕ) : Prop :=
  Chain.Reach h.succ pred n ∧ Chain.Reach h.succ item n

/-- From a node whose link was loaded as `next`. -/
def Past (h : Heap) (item : ℕ) (next : Link) (n : ℕ) : Prop :=
  n = item ∨ ∃ b, next.node = some b ∧ Chain.Reach h.succ b n

/-- What a thread knows of its call `r`. -/
def Pc.Stands (h : Heap) (H : History ℕ) (D : Decisions ℕ) (r : ClaimedCells.Call) : Pc → Prop
  | .returned _ => True
  | .findHead op => Running h.cells H D r op.onMap fun _ => True
  | .findNext op pred item => Running h.cells H D r op.onMap (Leads h pred item)
  | .findKey op pred item next => next.mark = false ∧ Seen H D r item
      ∧ Running h.cells H D r op.onMap fun n => Leads h pred item n ∧ Past h item next n
  | .findSkip op pred item =>
    (h.node item).next.mark = true ∧ Running h.cells H D r op.onMap (Leads h pred item)
  | .findUnlink op pred item _ => Running h.cells H D r op.onMap (Leads h pred item)
  | .findReload op pred item _ =>
    Running h.cells H D r op.onMap fun n => ∃ i, item = some i ∧ Leads h pred i n
  | .findDefer op pred item next _ =>
    (∀ i, item = some i → next.mark = false → Seen H D r i)
      ∧ Running h.cells H D r op.onMap fun n => ∃ i, item = some i ∧ Leads h pred i n
          ∧ (next.mark = false → Past h i next n)
  | .lookupVal item => ∃ key, Undecided H D r (.get key) ∧ Met h.cells H D r key item
  | .casAlloc op new _ _ =>
    ∃ expectation, op = .cas op.key expectation new ∧ writeMode expectation ≠ .replace
      ∧ op.onMap.Proper ∧ Undecided H D r op.onMap
  | .casLink op _ _ n => ∃ expectation, op = .cas op.key expectation (h.node n).val
      ∧ writeMode expectation ≠ .replace ∧ op.onMap.Proper ∧ Undecided H D r op.onMap
  | .casVal op expectation new item =>
    op = .cas op.key expectation new ∧ op.onMap.Proper ∧ Undecided H D r op.onMap
      ∧ Met h.cells H D r op.key item
  | .casUpdate op expectation new item old =>
    op = .cas op.key expectation new ∧ op.onMap.Proper
      ∧ if expectation = expectDoesNotExist ∧ old ≠ doesNotExist then
          Decided h.cells H D r op.onMap old
        else Undecided H D r op.onMap ∧ Met h.cells H D r op.key item
          ∧ (old = doesNotExist → D.claim item ≠ none)
  | .removeNext _ item | .removeMark _ item _ =>
    ∃ key, Undecided H D r (.remove key) ∧ Met h.cells H D r key item
  | .removeSwap _ item _ => D.claim item = some r ∧ (h.node item).val ≠ 0
  | .removeUnlink _ _ _ val | .removeDefer _ val => ∃ key, Decided h.cells H D r (.remove key) val

/-- What thread `u` relies on. -/
structure Regards (u : ℕ) (h : Heap) (g : Record (ClaimedCells.Op ℕ) ℕ) (D : Decisions ℕ)
    (h' : Heap) (g' : Record (ClaimedCells.Op ℕ) ℕ) (D' : Decisions ℕ) : Prop where
  list : Rely u h h'
  cells : ClaimedCells.Rely u h.cells g.events D h'.cells g'.events D'
  calls : g'.calls u = g.calls u
  leads : ∀ p n, h.Linked p → h'.cells.live n → Chain.Reach h.succ p n → Chain.Reach h'.succ p n
  mine : ∀ a, a < h.brk → h.owner a = u → a ∉ h.linked → (h'.node a).val = (h.node a).val

section Stable

variable {h h' : Heap} {g g' : Record (ClaimedCells.Op ℕ) ℕ} {D D' : Decisions ℕ} {u : ℕ} {op : Op}
  {pred item n : ℕ} {next : Link}

theorem Leads.stable (hr : Regards u h g D h' g' D') (hp : h.Linked pred) (hit : item ∈ h.linked)
    (hn : h'.cells.live n) (hl : Leads h pred item n) : Leads h' pred item n :=
  ⟨hr.leads pred n hp hn hl.1, hr.leads item n (.inr hit) hn hl.2⟩

theorem Past.stable (hr : Regards u h g D h' g' D')
    (hnext : ∀ b, next.node = some b → b ∈ h.linked) (hn : h'.cells.live n)
    (hl : Past h item next n) : Past h' item next n := by
  refine hl.imp id ?_
  rintro ⟨b, hb, hre⟩
  exact ⟨b, hb, hr.leads b n (.inr (hnext b hb)) hn hre⟩

/-- A thread goes on knowing it. -/
theorem Pc.Stands.stable {r : ClaimedCells.Call} {pc : Pc} (hi : Inv h) (he : Explained h g D)
    (hr : Regards r.1 h g D h' g' D') (hl : Local r.1 h pc)
    (hs : pc.Stands h g.events D r) : pc.Stands h' g'.events D' r := by
  cases pc with
  | returned val => trivial
  | findHead op => exact Running.stable he.good hr.cells hs fun _ _ _ _ hP => hP
  | findNext op pred item | findUnlink op pred item next =>
    refine Running.stable he.good hr.cells hs fun n _ hn _ hP => ?_
    first
      | exact hP.stable hr hl.1.2.1 hl.2 hn
      | exact hP.stable hr hl.1.2.1 hl.2.1 hn
  | findSkip op pred item =>
    obtain ⟨hm, hrun⟩ := hs
    refine ⟨?_, hrun.stable he.good hr.cells fun n _ hn _ hP => hP.stable hr hl.1.2.1 hl.2 hn⟩
    rw [hr.list.frozen item (hi.linked_lt item hl.2).2 hm]
    exact hm
  | findKey op pred item next =>
    obtain ⟨hm, hseen, hrun⟩ := hs
    obtain ⟨hplace, hit, hnext⟩ := hl
    exact ⟨hm, hseen.stable hr.cells hrun.undecided.called, hrun.stable he.good hr.cells
      fun n _ hn _ hP => ⟨hP.1.stable hr hplace.2.1 hit hn, hP.2.stable hr hnext hn⟩⟩
  | findReload op pred item old =>
    obtain ⟨hplace, hlinked, -⟩ := hl
    refine Running.stable he.good hr.cells hs ?_
    rintro n - hn - ⟨i, hit, hP⟩
    exact ⟨i, hit, hP.stable hr hplace.2.1 (hlinked i hit) hn⟩
  | findDefer op pred item next old =>
    obtain ⟨hseen, hrun⟩ := hs
    obtain ⟨hplace, -, hlinked⟩ := hl
    refine ⟨fun i hit hm => (hseen i hit hm).stable hr.cells hrun.undecided.called,
      hrun.stable he.good hr.cells ?_⟩
    rintro n - hn - ⟨i, hit, hP, hpast⟩
    obtain ⟨hil, hnext, -⟩ := hlinked i hit
    exact ⟨i, hit, hP.stable hr hplace.2.1 hil hn, fun hm => (hpast hm).stable hr hnext hn⟩
  | lookupVal item | removeNext pred item | removeMark pred item next =>
    obtain ⟨key, hp, hm⟩ := hs
    exact ⟨key, hp.stable he.good hr.cells, hm.stable hr.cells hp.called⟩
  | casAlloc op new pred item =>
    obtain ⟨e, hop, hmode, hok, hp⟩ := hs
    exact ⟨e, hop, hmode, hok, hp.stable he.good hr.cells⟩
  | casLink op pred next n =>
    obtain ⟨e, hop, hmode, hok, hp⟩ := hs
    obtain ⟨-, -, hlt, hnl, how, -⟩ := hl
    refine ⟨e, ?_, hmode, hok, hp.stable he.good hr.cells⟩
    rw [hr.mine n hlt how hnl]
    exact hop
  | casVal op e new item =>
    obtain ⟨hop, hok, hp, hm⟩ := hs
    exact ⟨hop, hok, hp.stable he.good hr.cells, hm.stable hr.cells hp.called⟩
  | casUpdate op e new item old =>
    obtain ⟨hop, hok, hcall⟩ := hs
    refine ⟨hop, hok, ?_⟩
    split_ifs at hcall ⊢ with hcond
    · exact hcall.stable hr.cells
    · obtain ⟨hp, hm, hclaim⟩ := hcall
      exact ⟨hp.stable he.good hr.cells, hm.stable hr.cells hp.called,
        fun h0 => hr.cells.claimed (hclaim h0)⟩
  | removeSwap pred item next =>
    exact ⟨hr.cells.claim item r hs.1, hr.cells.kept item r rfl hs.1 hs.2⟩
  | removeUnlink pred item next val | removeDefer item val =>
    obtain ⟨key, hd⟩ := hs
    exact ⟨key, hd.stable hr.cells⟩

end Stable

end LinkedList
