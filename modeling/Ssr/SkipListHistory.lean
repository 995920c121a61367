/-
# The calls of the skiplist and their history

`sl_lookup`, `sl_cas` and `sl_remove` as operations of a map, whose entries are the nodes: a
node is put in by the CAS that links it on the bottom level, is claimed by the CAS that marks it
there, and is emptied by the swap of its value.  The levels above only lead to it.

* `Heap.cells` — the nodes as cells;
* `Search` — what the search of an undecided call knows;
* `Pc.Stands` — what a thread knows of the call it is in;
* `Regards` — what it relies on, and `Pc.Stands.stable`: it knows it as long as it stands there.
-/
import Ssr.SkipListBlind
import Ssr.SkipListValues
import Ssr.ListHistory
import Ssr.CellCalls

open Interleaving Map Linearizability ClaimedCells
open LinkedList (Link writeMode)

namespace SkipList

/-! ## The operations -/

/-- A `sl_cas` as an operation of a map. -/
def Cas.onMap (args : Cas) : ClaimedCells.Op ℕ :=
  .write (writeMode args.expectation) args.key args.new

/-- The call as an operation of a map. -/
def Op.onMap : Op → ClaimedCells.Op ℕ
  | .lookup key => .get key
  | .cas args => args.onMap
  | .remove key => .remove key

/-- The operation that a step calls. -/
def Cmd.called : Cmd → Option (ClaimedCells.Op ℕ)
  | .call op => some op.onMap
  | .rand _ | .resume => none

/-- What the thread has returned. -/
def Pc.answer : Pc → Option ℕ
  | .returned val => some val
  | _ => none

/-! ## The nodes as cells -/

/-- The nodes: those that were linked and are not marked on the bottom level are live. -/
def Heap.cells (h : Heap) (g : Story) : View ℕ where
  key n := (h.node n).key
  val n := (h.node n).val
  live n := n ≠ 0 ∧ g.linked n 0 ∧ h.marked 0 n = false

/-- The nodes that were claimed are those that are marked on the bottom level. -/
def Marks (h : Heap) (g : Story) (D : Decisions ℕ) : Prop :=
  ∀ n, D.claim n ≠ none ↔ n ≠ 0 ∧ g.linked n 0 ∧ h.marked 0 n = true

/-- The order explains the history and the skiplist. -/
structure Explained (h : Heap) (g : Story) (rec : Record (ClaimedCells.Op ℕ) ℕ) (D : Decisions ℕ) :
    Prop where
  good : Good (h.cells g) rec.events D
  numbered : rec.Numbered
  marked : Marks h g D

/-- From `a` on, the bottom level leads to `n`. -/
def Heap.Ahead (h : Heap) (a n : ℕ) : Prop := Chain.Reach (h.succ 0) a n

/-- Where a search that stands at `item` may still meet `n`. -/
def Toward (h : Heap) (f : Find) (item n : ℕ) : Prop :=
  h.Ahead f.pred n ∧ (f.level = 0 → h.Ahead item n)

/-- On the bottom level, from a node whose link was loaded as `next`. -/
def Past (h : Heap) (item : ℕ) (next : Link) (n : ℕ) : Prop :=
  n = item ∨ ∃ b, next.node = some b ∧ h.Ahead b n

/-- What the search of a call that is not decided knows. -/
structure Search (h : Heap) (g : Story) (H : History ℕ) (D : Decisions ℕ) (r : ClaimedCells.Call)
    (f : Find) (P : ℕ → Prop) (o : ClaimedCells.Op ℕ) : Prop where
  running : Running (h.cells g) H D r o P
  before : f.pred = 0 ∨ (h.node f.pred).key < o.key
  met : f.d = 0 → ∀ i, f.item = some i → Met (h.cells g) H D r o.key i

/-- What it knows when it is about to compare the key of `item`. -/
structure Compares (h : Heap) (g : Story) (H : History ℕ) (D : Decisions ℕ) (r : ClaimedCells.Call)
    (f : Find) (item : ℕ) (next : Link) (o : ClaimedCells.Op ℕ) : Prop where
  seen : Seen H D r item
  search : Search h g H D r f (fun n => Toward h f item n
    ∧ ((h.node item).key < o.key → h.Ahead item n) ∧ (f.level = 0 → Past h item next n)) o

/-- The operation of a call that is not decided has `Q`; the others know their answer. -/
def Caller.Stands (V : View ℕ) (H : History ℕ) (D : Decisions ℕ) (r : ClaimedCells.Call)
    (Q : ClaimedCells.Op ℕ → Prop) : Caller → Prop
  | .lookup key => Q (.get key)
  | .cas args _ => Q args.onMap
  | .remove key _ => Q (.remove key)
  | .relink _ _ _ _ | .clean _ => ∃ o, Decided V H D r o doesNotExist
  | .unlinkRemoved key _ val => Decided V H D r (.remove key) val

/-- What a thread knows of its call `r`. -/
def Pc.Stands (h : Heap) (g : Story) (H : History ℕ) (D : Decisions ℕ) (r : ClaimedCells.Call) :
    Pc → Prop
  | .returned _ => True
  | .findStart c _ => c.Stands (h.cells g) H D r fun o => Running (h.cells g) H D r o fun _ => True
  | .findPred c f => c.Stands (h.cells g) H D r (Search h g H D r f (h.Ahead f.pred))
  | .findNext c f item | .findUnlink c f item _ =>
    c.Stands (h.cells g) H D r (Search h g H D r f (Toward h f item))
  | .findKey c f item next => c.Stands (h.cells g) H D r (Compares h g H D r f item next)
  | .lookupVal item => ∃ key, Undecided H D r (.get key) ∧ Met (h.cells g) H D r key item
  | .casRandom args | .casHighWater args _ | .casRaise args =>
    Running (h.cells g) H D r args.onMap fun _ => True
  | .casVal args item => args.onMap.Proper ∧ Undecided H D r args.onMap
      ∧ Met (h.cells g) H D r args.key item
  | .casUpdate args item old => args.onMap.Proper ∧ writeMode args.expectation ≠ .add
      ∧ old ≠ doesNotExist ∧ Undecided H D r args.onMap ∧ Met (h.cells g) H D r args.key item
  | .casAlloc args _ _ =>
    args.onMap.Proper ∧ writeMode args.expectation ≠ .replace ∧ Undecided H D r args.onMap
  | .casBottom args ins => args.onMap.Proper ∧ writeMode args.expectation ≠ .replace
      ∧ Undecided H D r args.onMap ∧ (h.node ins.newItem).val = args.new
  | .casLink _ _ _ | .casReload _ _ _ _ | .casStore _ _ _ _ _ | .casCheck _ _ =>
    ∃ o, Decided (h.cells g) H D r o doesNotExist
  | .removeHighWater key => Running (h.cells g) H D r (.remove key) fun _ => True
  | .removeLevels key item | .removeNext key item _ | .removeMark key item _ _ =>
    Undecided H D r (.remove key) ∧ Met (h.cells g) H D r key item
  | .removeSwap key item =>
    D.claim item = some r ∧ (h.node item).val ≠ doesNotExist ∧ (h.node item).key = key
  | .removeDefer _ val => ∃ key, Decided (h.cells g) H D r (.remove key) val

/-- What thread `u` relies on. -/
structure Regards (u : ℕ) (h : Heap) (g : Story) (rec : Record (ClaimedCells.Op ℕ) ℕ)
    (D : Decisions ℕ) (h' : Heap) (g' : Story) (rec' : Record (ClaimedCells.Op ℕ) ℕ)
    (D' : Decisions ℕ) : Prop where
  levels : Rely u h.blind g h'.blind g'
  cells : ClaimedCells.Rely u (h.cells g) rec.events D (h'.cells g') rec'.events D'
  calls : rec'.calls u = rec.calls u
  ahead : ∀ p n, g.linked p 0 → (h'.cells g').live n → h.Ahead p n → h'.Ahead p n
  mine : ∀ a, a ≠ 0 → a < h.brk → g.owner a = u → ¬ g.linked a 0 →
    (h'.node a).val = (h.node a).val

section Stable

variable {h h' : Heap} {g g' : Story} {rec rec' : Record (ClaimedCells.Op ℕ) ℕ}
  {D D' : Decisions ℕ} {r : ClaimedCells.Call} {f : Find} {c : Caller} {item n : ℕ} {next : Link}
  {P P' : ℕ → Prop} {o : ClaimedCells.Op ℕ} {Q Q' : ClaimedCells.Op ℕ → Prop}

theorem Caller.Stands.imp {V : View ℕ} {H : History ℕ} (hs : c.Stands V H D r Q)
    (hQ : ∀ o, o.key = c.key → c.unlink ≠ .force → Q o → Q' o) : c.Stands V H D r Q' := by
  cases c with
  | lookup | cas | remove => exact hQ _ rfl nofun hs
  | relink | clean | unlinkRemoved => exact hs

theorem Caller.Stands.stable {V V' : View ℕ} {H H' : History ℕ}
    (hr : ClaimedCells.Rely r.1 V H D V' H' D') (hs : c.Stands V H D r Q)
    (hQ : ∀ o, Q o → Q' o) : c.Stands V' H' D' r Q' := by
  cases c with
  | lookup | cas | remove => exact hQ _ hs
  | relink | clean =>
    obtain ⟨o, hd⟩ := hs
    exact ⟨o, hd.stable hr⟩
  | unlinkRemoved key item val => exact ClaimedCells.Decided.stable hr hs

theorem Toward.stable (hr : Regards r.1 h g rec D h' g' rec' D') (hp : g.linked f.pred 0)
    (hit : g.linked item 0) (hn : (h'.cells g').live n) (ht : Toward h f item n) :
    Toward h' f item n :=
  ⟨hr.ahead f.pred n hp hn ht.1, fun h0 => hr.ahead item n hit hn (ht.2 h0)⟩

theorem Past.stable (hr : Regards r.1 h g rec D h' g' rec' D')
    (hnext : ∀ b, next.node = some b → g.linked b 0) (hn : (h'.cells g').live n)
    (hp : Past h item next n) : Past h' item next n := by
  refine hp.imp id ?_
  rintro ⟨b, hb, hre⟩
  exact ⟨b, hb, hr.ahead b n (hnext b hb) hn hre⟩

theorem Search.stable (hi : Inv h.blind g) (he : Explained h g rec D)
    (hr : Regards r.1 h g rec D h' g' rec' D') (hp : g.linked f.pred 0)
    (hs : Search h g rec.events D r f P o)
    (hP : ∀ n, (h'.cells g').live n → P n → P' n) : Search h' g' rec'.events D' r f P' o where
  running := hs.running.stable he.good hr.cells fun n _ hn _ => hP n hn
  before := hs.before.imp id fun hlt => (hr.levels.grows.key_eq f.pred (hi.lt_brk hp)).trans_lt hlt
  met hd i hit := (hs.met hd i hit).stable hr.cells hs.running.undecided.called

/-- A thread goes on knowing it. -/
theorem Pc.Stands.stable {pc : Pc} (hs : SkipList.Sound h g) (he : Explained h g rec D)
    (hr : Regards r.1 h g rec D h' g' rec' D') (hp : pc.Sound r.1 h g)
    (hst : pc.Stands h g rec.events D r) : pc.Stands h' g' rec'.events D' r := by
  have hi := hs.inv
  have hsafe := hp.safe
  cases pc with
  | returned val => trivial
  | findStart c path =>
    exact Caller.Stands.stable (Q := fun o => Running (h.cells g) rec.events D r o fun _ => True)
      hr.cells hst fun o hq => hq.stable he.good hr.cells fun _ _ _ _ _ => trivial
  | findPred c f =>
    have hpred := hi.linked_of_le (Nat.zero_le _) hsafe.1.stands.linked
    exact Caller.Stands.stable hr.cells hst fun o hq =>
      hq.stable hi he hr hpred fun n hn => hr.ahead f.pred n hpred hn
  | findNext c f item | findUnlink c f item next =>
    have hpred := hi.linked_of_le (Nat.zero_le _) hsafe.1.stands.linked
    have hit := hi.linked_of_le (Nat.zero_le _) (hsafe.2.1 item rfl).2
    exact Caller.Stands.stable hr.cells hst fun o hq =>
      hq.stable hi he hr hpred fun n hn ht => ht.stable hr hpred hit hn
  | findKey c f item next =>
    have hpred := hi.linked_of_le (Nat.zero_le _) hsafe.1.stands.linked
    have hit := hi.linked_of_le (Nat.zero_le _) (hsafe.2.1 item rfl).2
    have hnext : ∀ b, next.node = some b → g.linked b 0 := fun b hb =>
      hi.linked_of_le (Nat.zero_le _) (hsafe.2.2.1 b hb).2
    refine Caller.Stands.stable (Q := Compares h g rec.events D r f item next) hr.cells hst
      fun o ⟨hseen, hq⟩ => ⟨hseen.stable hr.cells hq.running.undecided.called,
        hq.stable hi he hr hpred fun n hn ⟨ht, hkey, hpast⟩ => ⟨ht.stable hr hpred hit hn, ?_,
          fun h0 => (hpast h0).stable hr hnext hn⟩⟩
    intro hlt
    refine hr.ahead item n hit hn (hkey ?_)
    exact (hr.levels.grows.key_eq item (hi.lt_brk hit)).symm.trans_lt hlt
  | lookupVal item =>
    obtain ⟨key, hu, hm⟩ := hst
    exact ⟨key, hu.stable he.good hr.cells, hm.stable hr.cells hu.called⟩
  | casRandom | casHighWater | casRaise | removeHighWater =>
    exact Running.stable he.good hr.cells hst fun _ _ _ _ _ => trivial
  | casVal args item =>
    obtain ⟨hok, hu, hm⟩ := hst
    exact ⟨hok, hu.stable he.good hr.cells, hm.stable hr.cells hu.called⟩
  | casUpdate args item old =>
    obtain ⟨hok, hmode, hold, hu, hm⟩ := hst
    exact ⟨hok, hmode, hold, hu.stable he.good hr.cells, hm.stable hr.cells hu.called⟩
  | casAlloc args n path =>
    obtain ⟨hok, hmode, hu⟩ := hst
    exact ⟨hok, hmode, hu.stable he.good hr.cells⟩
  | casBottom args ins =>
    obtain ⟨hok, hmode, hu, hv⟩ := hst
    have hb := hsafe.1
    have hnl : ¬ g.linked ins.newItem 0 := fun hl => Nat.not_lt_zero _ ((hb.linked 0).mp hl)
    exact ⟨hok, hmode, hu.stable he.good hr.cells,
      (hr.mine ins.newItem hb.ne_zero hb.lt_brk hb.owner hnl).trans hv⟩
  | casLink | casReload | casStore | casCheck =>
    obtain ⟨o, hd⟩ := hst
    exact ⟨o, hd.stable hr.cells⟩
  | removeLevels | removeNext | removeMark =>
    obtain ⟨hu, hm⟩ := hst
    exact ⟨hu.stable he.good hr.cells, hm.stable hr.cells hu.called⟩
  | removeSwap key item =>
    obtain ⟨hc, hv, hk⟩ := hst
    refine ⟨hr.cells.claim item r hc, hr.cells.kept item r rfl hc hv, ?_⟩
    exact (hr.cells.key item (.inr (by simp [hc]))).trans hk
  | removeDefer item val =>
    obtain ⟨key, hd⟩ := hst
    exact ⟨key, hd.stable hr.cells⟩

end Stable

end SkipList
