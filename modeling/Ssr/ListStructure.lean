/-
# Structure and reclamation of the lock-free list

The invariant of the Harris-Michael list, for any number of threads and any
interleaving.  Its core is three facts about the nodes that a CAS has ever put
into the list:

* every link, also out of a node that has left the list, leads to a larger key;
* a node that is not marked is still reached from `ll->head`;
* a node left the list exactly when its unlinking CAS is on record.

A CAS on `pred->next` succeeds only on an unmarked link, so `pred` is in the list
at that moment, however stale the search that found it was.  Everything else is
the two updates of a sorted chain (`Chain.reach_insert_iff`,
`Chain.reach_delete_iff`).
-/
import Ssr.List

open Interleaving Map

namespace LinkedList

/-! ## Stores into a heap -/

namespace Heap

variable (h : Heap)

/-- A store into a link changes no key. -/
@[simp] theorem setNext_key (a b : ℕ) (l : Link) : ((h.setNext a l).node b).key = (h.node b).key := by
  by_cases hb : b = a
  · subst hb
    simp [setNext]
  · simp [setNext, hb]

/-- The other links are as they were. -/
theorem setNext_next_of_ne {a b : ℕ} (hb : b ≠ a) (l : Link) :
    ((h.setNext a l).node b).next = (h.node b).next := by
  simp [setNext, hb]

/-- The link that was stored. -/
@[simp] theorem setNext_next_self (a : ℕ) (l : Link) : ((h.setNext a l).node a).next = l := by
  simp [setNext]

/-- The successors after a store into a link. -/
theorem setNext_succ (a : ℕ) (l : Link) : (h.setNext a l).succ = Function.update h.succ a l.node := by
  funext b
  by_cases hb : b = a
  · subst hb
    simp [succ]
  · rw [succ, setNext_next_of_ne h hb, Function.update_of_ne hb]
    rfl

/-- A store of a value changes no key. -/
@[simp] theorem setVal_key (a b v : ℕ) : ((h.setVal a v).node b).key = (h.node b).key := by
  by_cases hb : b = a
  · subst hb
    simp [setVal]
  · simp [setVal, hb]

/-- It changes no link. -/
@[simp] theorem setVal_next (a b v : ℕ) : ((h.setVal a v).node b).next = (h.node b).next := by
  by_cases hb : b = a
  · subst hb
    simp [setVal]
  · simp [setVal, hb]

/-- It changes no successor. -/
theorem setVal_succ (a v : ℕ) : (h.setVal a v).succ = h.succ := by
  funext b
  simp [succ]

/-- The other nodes are as they were. -/
theorem alloc_node_of_ne {a : ℕ} (ha : a ≠ h.brk) (t : ℕ) (n : Node) :
    (h.alloc t n).node a = h.node a := by
  simp [alloc, ha]

/-- The node that was allocated. -/
@[simp] theorem alloc_node_brk (t : ℕ) (n : Node) : (h.alloc t n).node h.brk = n := by
  simp [alloc]

/-! ## The invariant -/

/-- A CAS put `a` into the list, or it is the sentinel. -/
def Linked (a : ℕ) : Prop := a = 0 ∨ a ∈ h.linked

/-- The order of the list: the sentinel comes first, then the keys grow. -/
def Below (a b : ℕ) : Prop := b ≠ 0 ∧ (a = 0 ∨ (h.node a).key < (h.node b).key)

end Heap

/-- The shared part of the invariant. -/
structure Inv (h : Heap) : Prop where
  brk_pos : 0 < h.brk
  linked_lt : ∀ a ∈ h.linked, a ≠ 0 ∧ a < h.brk
  fresh : ∀ a, h.brk ≤ a → h.succ a = none
  small : ∀ a ∈ h.linked, (h.node a).key < 2 ^ 31
  link_linked : ∀ a b, h.succ a = some b → b ∈ h.linked
  link_below : ∀ a b, h.succ a = some b → h.Below a b
  head_unmarked : (h.node 0).next.mark = false
  unmarked_reachable : ∀ a ∈ h.linked, (h.node a).next.mark = false → h.Reachable a
  unlinked_gone : ∀ a t, (a, t) ∈ h.unlinked → a ∈ h.linked ∧ ¬ h.Reachable a
  unlinked_nodup : (h.unlinked.map Prod.fst).Nodup
  gone_unlinked : ∀ a ∈ h.linked, ¬ h.Reachable a → ∃ t, (a, t) ∈ h.unlinked
  handed_unlinked : ∀ a t, (a, t) ∈ h.handed → (a, t) ∈ h.unlinked
  handed_nodup : (h.handed.map Prod.fst).Nodup

/-- Thread `t` took `a` out of the list and has not handed it over yet. -/
def Pending (t : ℕ) (h : Heap) (a : ℕ) : Prop := (a, t) ∈ h.unlinked ∧ a ∉ h.handed.map Prod.fst

/-- `pred` was met by a search for `key`. -/
def Place (h : Heap) (key pred : ℕ) : Prop :=
  key < 2 ^ 31 ∧ h.Linked pred ∧ (pred = 0 ∨ (h.node pred).key < key)

/-- The local part of the invariant, by program counter. -/
def Local (t : ℕ) (h : Heap) : Pc → Prop
  | .returned _ => True
  | .findHead op => op.key < 2 ^ 31
  | .findNext op pred item | .findSkip op pred item => Place h op.key pred ∧ item ∈ h.linked
  | .findKey op pred item next =>
    Place h op.key pred ∧ item ∈ h.linked ∧ ∀ b, next.node = some b → b ∈ h.linked
  | .findUnlink op pred item next =>
    Place h op.key pred ∧ item ∈ h.linked ∧ next.mark = true ∧ (h.node item).next = next
  | .findReload op pred item old =>
    Place h op.key pred ∧ (∀ i, item = some i → i ∈ h.linked) ∧ Pending t h old
  | .findDefer op pred item next old =>
    Place h op.key pred ∧ Pending t h old
      ∧ ∀ i, item = some i → i ∈ h.linked ∧ (∀ b, next.node = some b → b ∈ h.linked)
          ∧ (next.mark = true → (h.node i).next = next)
  | .lookupVal _ => True
  | .casAlloc op _ pred item =>
    Place h op.key pred ∧ ∀ i, item = some i → i ∈ h.linked ∧ op.key < (h.node i).key
  | .casLink op pred next n =>
    Place h op.key pred ∧ n ≠ 0 ∧ n < h.brk ∧ n ∉ h.linked ∧ h.owner n = t
      ∧ (h.node n).key = op.key ∧ (h.node n).next = ⟨next, false⟩
  | .casVal op _ _ item | .casUpdate op _ _ item _ => op.key < 2 ^ 31 ∧ item ∈ h.linked
  | .removeNext pred item | .removeMark pred item _ => h.Linked pred ∧ item ∈ h.linked
  | .removeSwap pred item next | .removeUnlink pred item next _ =>
    h.Linked pred ∧ item ∈ h.linked ∧ (h.node item).next = ⟨next.node, true⟩
  | .removeDefer item _ => Pending t h item

/-- What thread `u` relies on. -/
structure Rely (u : ℕ) (h h' : Heap) : Prop where
  brk_le : h.brk ≤ h'.brk
  key_eq : ∀ a, a < h.brk → (h'.node a).key = (h.node a).key
  linked_sub : ∀ a ∈ h.linked, a ∈ h'.linked
  frozen : ∀ a, a < h.brk → (h.node a).next.mark = true → (h'.node a).next = (h.node a).next
  mine : ∀ a, a ≠ 0 → a < h.brk → h.owner a = u → a ∉ h.linked →
    a ∉ h'.linked ∧ h'.owner a = u ∧ (h'.node a).next = (h.node a).next
  pending : ∀ a, Pending u h a → Pending u h' a

/-- No step is no matter to anybody. -/
theorem Rely.refl (u : ℕ) (h : Heap) : Rely u h h :=
  ⟨le_rfl, fun _ _ => rfl, fun _ ha => ha, fun _ _ _ => rfl, fun _ _ _ ho hl => ⟨hl, ho, rfl⟩,
    fun _ ha => ha⟩

/-- A node that was linked was linked. -/
theorem Rely.linked {u : ℕ} {h h' : Heap} (hr : Rely u h h') {a : ℕ} (ha : h.Linked a) :
    h'.Linked a :=
  ha.imp id (hr.linked_sub a)

/-- A place in the list stays one. -/
theorem Rely.place {u : ℕ} {h h' : Heap} (hi : Inv h) (hr : Rely u h h') {key pred : ℕ}
    (hp : Place h key pred) : Place h' key pred := by
  obtain ⟨hk, hl, hlt⟩ := hp
  refine ⟨hk, hr.linked hl, ?_⟩
  rcases hl with rfl | hl
  · exact Or.inl rfl
  · rw [hr.key_eq pred (hi.linked_lt pred hl).2]
    exact hlt

/-- **What a thread rests on** is stable. -/
theorem Local.stable {u : ℕ} {h h' : Heap} (hi : Inv h) (hr : Rely u h h') {pc : Pc}
    (hl : Local u h pc) : Local u h' pc := by
  have hlt : ∀ a ∈ h.linked, a < h.brk := fun a ha => (hi.linked_lt a ha).2
  have hfrozen : ∀ a ∈ h.linked, ∀ l : Link, l.mark = true → (h.node a).next = l →
      (h'.node a).next = l := by
    intro a ha l hm heq
    rw [hr.frozen a (hlt a ha) (by rw [heq]; exact hm), heq]
  cases pc with
  | returned | lookupVal => trivial
  | findHead op => exact hl
  | findNext op pred item | findSkip op pred item =>
    exact ⟨hr.place hi hl.1, hr.linked_sub item hl.2⟩
  | findKey op pred item next =>
    obtain ⟨hp, hit, hn⟩ := hl
    exact ⟨hr.place hi hp, hr.linked_sub item hit, fun b hb => hr.linked_sub b (hn b hb)⟩
  | findUnlink op pred item next =>
    obtain ⟨hp, hit, hm, hn⟩ := hl
    exact ⟨hr.place hi hp, hr.linked_sub item hit, hm, hfrozen item hit next hm hn⟩
  | findReload op pred item old =>
    obtain ⟨hp, hit, ho⟩ := hl
    exact ⟨hr.place hi hp, fun i hi' => hr.linked_sub i (hit i hi'), hr.pending old ho⟩
  | findDefer op pred item next old =>
    obtain ⟨hp, ho, hit⟩ := hl
    refine ⟨hr.place hi hp, hr.pending old ho, fun i hi' => ?_⟩
    obtain ⟨h₁, h₂, h₃⟩ := hit i hi'
    exact ⟨hr.linked_sub i h₁, fun b hb => hr.linked_sub b (h₂ b hb),
      fun hm => hfrozen i h₁ next hm (h₃ hm)⟩
  | casAlloc op new pred item =>
    obtain ⟨hp, hit⟩ := hl
    refine ⟨hr.place hi hp, fun i hi' => ?_⟩
    obtain ⟨h₁, h₂⟩ := hit i hi'
    refine ⟨hr.linked_sub i h₁, ?_⟩
    rw [hr.key_eq i (hlt i h₁)]
    exact h₂
  | casLink op pred next n =>
    obtain ⟨hp, h0, hn, hnl, ho, hk, hnx⟩ := hl
    obtain ⟨h₁, h₂, h₃⟩ := hr.mine n h0 hn ho hnl
    refine ⟨hr.place hi hp, h0, lt_of_lt_of_le hn hr.brk_le, h₁, h₂, ?_, ?_⟩
    · rw [hr.key_eq n hn]
      exact hk
    · rw [h₃]
      exact hnx
  | casVal op e new item | casUpdate op e new item old => exact ⟨hl.1, hr.linked_sub item hl.2⟩
  | removeNext pred item | removeMark pred item next =>
    exact ⟨hr.linked hl.1, hr.linked_sub item hl.2⟩
  | removeSwap pred item next | removeUnlink pred item next val =>
    obtain ⟨hp, hit, hn⟩ := hl
    exact ⟨hr.linked hp, hr.linked_sub item hit, hfrozen item hit _ rfl hn⟩
  | removeDefer item val => exact hr.pending item hl

/-! ## The list is a sorted chain -/

/-- The list is sorted by keys. -/
theorem Inv.sorted {h : Heap} (hi : Inv h) : Chain.Sorted h.succ h.Below where
  trans := by
    rintro a b c ⟨hb, hab⟩ ⟨hc, hbc⟩
    refine ⟨hc, ?_⟩
    rcases hbc with rfl | hbc
    · exact absurd rfl hb
    · rcases hab with rfl | hab
      · exact Or.inl rfl
      · exact Or.inr (hab.trans hbc)
  irrefl := by
    rintro a ⟨ha, hlt⟩
    rcases hlt with h0 | hlt
    · exact ha h0
    · exact lt_irrefl _ hlt
  link := hi.link_below

/-- An unmarked link starts in the list. -/
theorem Inv.reachable_of_unmarked {h : Heap} (hi : Inv h) {a : ℕ} (ha : h.Linked a)
    (hm : (h.node a).next.mark = false) : h.Reachable a := by
  rcases ha with rfl | ha
  · exact Chain.Reach.refl 0
  · exact hi.unmarked_reachable a ha hm

/-! ## One lemma per shared update -/

section Updates

variable {h : Heap} {t : ℕ}

/-- A store of a value keeps the invariant. -/
theorem Inv.setVal (hi : Inv h) (a v : ℕ) : Inv (h.setVal a v) := by
  have hs := h.setVal_succ a v
  have hre : ∀ b, (h.setVal a v).Reachable b ↔ h.Reachable b := fun b => by
    rw [Heap.Reachable, Heap.Reachable, hs]
  refine ⟨hi.brk_pos, hi.linked_lt, ?_, ?_, ?_, ?_, ?_, ?_, ?_, hi.unlinked_nodup, ?_,
    hi.handed_unlinked, hi.handed_nodup⟩
  · rw [hs]
    exact hi.fresh
  · intro b hb
    rw [Heap.setVal_key]
    exact hi.small b hb
  · rw [hs]
    exact hi.link_linked
  · intro b c hbc
    rw [hs] at hbc
    simp only [Heap.Below, Heap.setVal_key]
    exact hi.link_below b c hbc
  · rw [Heap.setVal_next]
    exact hi.head_unmarked
  · intro b hb hm
    rw [Heap.setVal_next] at hm
    rw [hre]
    exact hi.unmarked_reachable b hb hm
  · intro b u hb
    rw [hre]
    exact hi.unlinked_gone b u hb
  · intro b hb hnr
    rw [hre] at hnr
    exact hi.gone_unlinked b hb hnr

/-- It is no matter to anybody. -/
theorem Rely.setVal (u : ℕ) (h : Heap) (a v : ℕ) : Rely u h (h.setVal a v) :=
  ⟨le_rfl, fun b _ => h.setVal_key a b v, fun _ hb => hb, fun b _ _ => h.setVal_next a b v,
    fun b _ _ ho hl => ⟨hl, ho, h.setVal_next a b v⟩, fun _ hp => hp⟩

/-- A node that nobody sees yet. -/
theorem Inv.alloc (hi : Inv h) (n : Node)
    (hn : ∀ b, n.next.node = some b → b ∈ h.linked ∧ n.key < (h.node b).key) :
    Inv (h.alloc t n) := by
  have hold : ∀ a, a ≠ h.brk → (h.alloc t n).node a = h.node a := fun a ha =>
    h.alloc_node_of_ne ha t n
  have hlinked : ∀ a ∈ h.linked, a ≠ h.brk := fun a ha => (hi.linked_lt a ha).2.ne
  have h0 : (0 : ℕ) ≠ h.brk := hi.brk_pos.ne
  have hsucc : ∀ a, a ≠ h.brk → (h.alloc t n).succ a = h.succ a := fun a ha => by
    rw [Heap.succ, hold a ha]
    rfl
  -- no link leads to the new node, so the chain from the sentinel does not see it
  have hre : ∀ b, (h.alloc t n).Reachable b ↔ h.Reachable b := by
    intro b
    constructor
    · intro hb
      refine Chain.Reach.congr (S := fun a => a ≠ h.brk) h0 ?_ (fun a ha => (hsucc a ha).symm) hb
      intro a c ha hac
      rw [hsucc a ha] at hac
      exact hlinked c (hi.link_linked a c hac)
    · intro hb
      refine Chain.Reach.congr (S := fun a => a ≠ h.brk) h0 ?_ hsucc hb
      intro a c _ hac
      exact hlinked c (hi.link_linked a c hac)
  refine ⟨Nat.succ_pos _, ?_, ?_, ?_, ?_, ?_, ?_, ?_, ?_, hi.unlinked_nodup, ?_,
    hi.handed_unlinked, hi.handed_nodup⟩
  · intro a ha
    exact ⟨(hi.linked_lt a ha).1, Nat.lt_succ_of_lt (hi.linked_lt a ha).2⟩
  · intro a ha
    have hlt : h.brk < a := ha
    rw [hsucc a hlt.ne']
    exact hi.fresh a hlt.le
  · intro a ha
    rw [hold a (hlinked a ha)]
    exact hi.small a ha
  · intro a b hab
    by_cases haf : a = h.brk
    · subst haf
      rw [Heap.succ, Heap.alloc_node_brk] at hab
      exact (hn b hab).1
    · rw [hsucc a haf] at hab
      exact hi.link_linked a b hab
  · intro a b hab
    by_cases haf : a = h.brk
    · subst haf
      rw [Heap.succ, Heap.alloc_node_brk] at hab
      obtain ⟨hb, hlt⟩ := hn b hab
      refine ⟨(hi.linked_lt b hb).1, Or.inr ?_⟩
      rw [Heap.alloc_node_brk, hold b (hlinked b hb)]
      exact hlt
    · rw [hsucc a haf] at hab
      simp only [Heap.Below]
      rw [hold a haf, hold b (hlinked b (hi.link_linked a b hab))]
      exact hi.link_below a b hab
  · rw [hold 0 h0]
    exact hi.head_unmarked
  · intro a ha hma
    rw [hold a (hlinked a ha)] at hma
    rw [hre]
    exact hi.unmarked_reachable a ha hma
  · intro a u ha
    rw [hre]
    exact hi.unlinked_gone a u ha
  · intro a ha hnr
    rw [hre] at hnr
    exact hi.gone_unlinked a ha hnr

/-- Nor is a new node. -/
theorem Rely.alloc (u : ℕ) (h : Heap) (n : Node) : Rely u h (h.alloc t n) := by
  have hold : ∀ a, a < h.brk → (h.alloc t n).node a = h.node a := fun a ha =>
    h.alloc_node_of_ne ha.ne t n
  refine ⟨Nat.le_succ _, fun a ha => ?_, fun _ ha => ha, fun a ha _ => ?_,
    fun a _ ha ho hl => ⟨hl, ?_, ?_⟩, fun _ hp => hp⟩
  · rw [hold a ha]
  · rw [hold a ha]
  · simp only [Heap.alloc, Function.update_of_ne ha.ne]
    exact ho
  · rw [hold a ha]

/-- Marking a node, or marking it again, moves no link. -/
theorem Inv.mark (hi : Inv h) {a : ℕ} (ha : a ∈ h.linked) :
    Inv (h.setNext a ⟨(h.node a).next.node, true⟩) := by
  have hs : (h.setNext a ⟨(h.node a).next.node, true⟩).succ = h.succ := by
    rw [Heap.setNext_succ]
    exact Function.update_eq_self a h.succ
  have hre : ∀ b, (h.setNext a ⟨(h.node a).next.node, true⟩).Reachable b ↔ h.Reachable b :=
    fun b => by rw [Heap.Reachable, Heap.Reachable, hs]
  have h0 : (0 : ℕ) ≠ a := (hi.linked_lt a ha).1.symm
  refine ⟨hi.brk_pos, hi.linked_lt, ?_, ?_, ?_, ?_, ?_, ?_, ?_, hi.unlinked_nodup, ?_,
    hi.handed_unlinked, hi.handed_nodup⟩
  · rw [hs]
    exact hi.fresh
  · intro b hb
    rw [Heap.setNext_key]
    exact hi.small b hb
  · rw [hs]
    exact hi.link_linked
  · intro b c hbc
    rw [hs] at hbc
    simp only [Heap.Below, Heap.setNext_key]
    exact hi.link_below b c hbc
  · rw [Heap.setNext_next_of_ne h h0]
    exact hi.head_unmarked
  · intro b hb hm
    rw [hre]
    by_cases hba : b = a
    · subst hba
      rw [Heap.setNext_next_self] at hm
      exact absurd hm Bool.noConfusion
    · rw [Heap.setNext_next_of_ne h hba] at hm
      exact hi.unmarked_reachable b hb hm
  · intro b u hb
    rw [hre]
    exact hi.unlinked_gone b u hb
  · intro b hb hnr
    rw [hre] at hnr
    exact hi.gone_unlinked b hb hnr

/-- Nor is a mark. -/
theorem Rely.mark (u : ℕ) {a : ℕ} (ha : a ∈ h.linked) :
    Rely u h (h.setNext a ⟨(h.node a).next.node, true⟩) := by
  refine ⟨le_rfl, fun b _ => h.setNext_key a b _, fun _ hb => hb, fun b _ hm => ?_,
    fun b _ _ ho hl => ⟨hl, ho, ?_⟩, fun _ hp => hp⟩
  · by_cases hba : b = a
    · subst hba
      rw [Heap.setNext_next_self, ← hm]
    · exact h.setNext_next_of_ne hba _
  · refine h.setNext_next_of_ne ?_ _
    rintro rfl
    exact hl ha

/-- A successful insertion: `n` takes the place in front of the old successor. -/
theorem Inv.link (hi : Inv h) {p n : ℕ} (hp : h.Linked p) (hn0 : n ≠ 0) (hnb : n < h.brk)
    (hnl : n ∉ h.linked) (hsmall : (h.node n).key < 2 ^ 31)
    (hpn : p = 0 ∨ (h.node p).key < (h.node n).key)
    (hcas : (h.node p).next = (h.node n).next) (hm : (h.node n).next.mark = false) :
    Inv (h.link p n) := by
  have hs : (h.link p n).succ = Function.update h.succ p (some n) := h.setNext_succ p _
  have hpne : p ≠ n := by
    rintro rfl
    exact hp.elim hn0 hnl
  have hpr : h.Reachable p := hi.reachable_of_unmarked hp (by rw [hcas]; exact hm)
  have hre : ∀ b, (h.link p n).Reachable b ↔ h.Reachable b ∨ b = n := by
    intro b
    rw [Heap.Reachable, hs]
    refine Chain.reach_insert_iff ?_ hpne ?_ hn0.symm hpr
    · rw [Heap.succ, Heap.succ, hcas]
    · intro y hy
      exact hnl (hi.link_linked y n hy)
  have hkey : ∀ b, ((h.link p n).node b).key = (h.node b).key := fun b => h.setNext_key p b _
  have hmem : ∀ b, b ∈ (h.link p n).linked ↔ b ∈ h.linked ∨ b = n := fun b => by
    simp [Heap.link]
  have hnext : ∀ b, b ≠ p → ((h.link p n).node b).next = (h.node b).next := fun b hb =>
    h.setNext_next_of_ne hb _
  refine ⟨hi.brk_pos, ?_, ?_, ?_, ?_, ?_, ?_, ?_, ?_, hi.unlinked_nodup, ?_,
    hi.handed_unlinked, hi.handed_nodup⟩
  · intro a ha
    rcases (hmem a).mp ha with ha | rfl
    · exact hi.linked_lt a ha
    · exact ⟨hn0, hnb⟩
  · intro a ha
    rw [hs, Function.update_of_ne]
    · exact hi.fresh a ha
    · rintro rfl
      have hlt : a < h.brk := hp.elim (fun h0 => h0 ▸ hi.brk_pos) fun hl => (hi.linked_lt a hl).2
      exact absurd hlt (Nat.not_lt.mpr ha)
  · intro a ha
    rw [hkey]
    rcases (hmem a).mp ha with ha | rfl
    · exact hi.small a ha
    · exact hsmall
  · intro a b hab
    rw [hs] at hab
    by_cases hap : a = p
    · subst hap
      rw [Function.update_self] at hab
      exact (hmem b).mpr (Or.inr (Option.some.inj hab).symm)
    · rw [Function.update_of_ne hap] at hab
      exact (hmem b).mpr (Or.inl (hi.link_linked a b hab))
  · intro a b hab
    simp only [Heap.Below, hkey]
    rw [hs] at hab
    by_cases hap : a = p
    · subst hap
      rw [Function.update_self] at hab
      obtain rfl : n = b := Option.some.inj hab
      exact ⟨hn0, hpn⟩
    · rw [Function.update_of_ne hap] at hab
      exact hi.link_below a b hab
  · by_cases h0 : (0 : ℕ) = p
    · subst h0
      exact congrArg Link.mark (h.setNext_next_self 0 _)
    · rw [hnext 0 h0]
      exact hi.head_unmarked
  · intro a ha hma
    rw [hre]
    rcases (hmem a).mp ha with ha | rfl
    · by_cases hap : a = p
      · exact Or.inl (hap ▸ hpr)
      · rw [hnext a hap] at hma
        exact Or.inl (hi.unmarked_reachable a ha hma)
    · exact Or.inr rfl
  · intro a u ha
    obtain ⟨hl, hnr⟩ := hi.unlinked_gone a u ha
    refine ⟨(hmem a).mpr (Or.inl hl), ?_⟩
    rw [hre]
    rintro (hr | rfl)
    · exact hnr hr
    · exact hnl hl
  · intro a ha hnr
    rw [hre] at hnr
    rcases (hmem a).mp ha with ha | rfl
    · exact hi.gone_unlinked a ha fun hr => hnr (Or.inl hr)
    · exact absurd (Or.inr rfl) hnr

/-- A node is linked by its owner. -/
theorem Rely.link {u p n : ℕ} (hp : h.Linked p) (hm : (h.node p).next.mark = false)
    (hon : h.owner n = t) (hu : u ≠ t) : Rely u h (h.link p n) := by
  have hnext : ∀ b, b ≠ p → ((h.link p n).node b).next = (h.node b).next := fun b hb =>
    h.setNext_next_of_ne hb _
  refine ⟨le_rfl, fun b _ => h.setNext_key p b _, fun b hb => List.mem_append_left _ hb,
    fun b _ hmb => hnext b ?_, fun b h0 _ ho hl => ⟨?_, ho, hnext b ?_⟩, fun _ hpd => hpd⟩
  · rintro rfl
    rw [hm] at hmb
    exact absurd hmb Bool.noConfusion
  · simp only [Heap.link, List.mem_append, List.mem_singleton, not_or]
    refine ⟨hl, ?_⟩
    rintro rfl
    exact hu (ho.symm.trans hon)
  · rintro rfl
    exact hp.elim h0 hl

/-- A successful unlinking CAS removes exactly the marked node. -/
theorem Inv.unlink (hi : Inv h) {p i : ℕ} {l : Option ℕ} (hp : h.Linked p)
    (hcas : (h.node p).next = ⟨some i, false⟩) (hmark : (h.node i).next = ⟨l, true⟩) :
    Inv (h.unlink t p i l) ∧ h.Reachable i := by
  have hs : (h.unlink t p i l).succ = Function.update h.succ p (h.succ i) := by
    have h₁ : (h.unlink t p i l).succ = Function.update h.succ p l := h.setNext_succ p _
    have h₂ : h.succ i = l := congrArg Link.node hmark
    rw [h₁, h₂]
  have hpi : h.succ p = some i := congrArg Link.node hcas
  have hpr : h.Reachable p := hi.reachable_of_unmarked hp (by rw [hcas])
  have hil : i ∈ h.linked := hi.link_linked p i hpi
  have hi0 : (0 : ℕ) ≠ i := (hi.linked_lt i hil).1.symm
  have hir : h.Reachable i := hpr.tail hpi
  have hre : ∀ b, (h.unlink t p i l).Reachable b ↔ h.Reachable b ∧ b ≠ i := by
    intro b
    rw [Heap.Reachable, hs]
    exact Chain.reach_delete_iff hi.sorted hpi hi0 hpr
  have hkey : ∀ b, ((h.unlink t p i l).node b).key = (h.node b).key := fun b => h.setNext_key p b _
  have hnext : ∀ b, b ≠ p → ((h.unlink t p i l).node b).next = (h.node b).next := fun b hb =>
    h.setNext_next_of_ne hb _
  have hmem : ∀ a u, (a, u) ∈ (h.unlink t p i l).unlinked ↔ (a, u) ∈ h.unlinked ∨ (a, u) = (i, t) :=
    fun a u => by simp [Heap.unlink]
  refine ⟨⟨hi.brk_pos, hi.linked_lt, ?_, ?_, ?_, ?_, ?_, ?_, ?_, ?_, ?_, ?_, hi.handed_nodup⟩, hir⟩
  · intro a ha
    rw [hs, Function.update_of_ne]
    · exact hi.fresh a ha
    · rintro rfl
      have hlt : a < h.brk := hp.elim (fun h0 => h0 ▸ hi.brk_pos) fun hl => (hi.linked_lt a hl).2
      exact absurd hlt (Nat.not_lt.mpr ha)
  · intro a ha
    rw [hkey]
    exact hi.small a ha
  · intro a b hab
    rw [hs] at hab
    by_cases hap : a = p
    · subst hap
      rw [Function.update_self] at hab
      exact hi.link_linked i b hab
    · rw [Function.update_of_ne hap] at hab
      exact hi.link_linked a b hab
  · intro a b hab
    simp only [Heap.Below, hkey]
    rw [hs] at hab
    by_cases hap : a = p
    · subst hap
      rw [Function.update_self] at hab
      exact hi.sorted.trans _ _ _ (hi.link_below a i hpi) (hi.link_below i b hab)
    · rw [Function.update_of_ne hap] at hab
      exact hi.link_below a b hab
  · by_cases h0 : (0 : ℕ) = p
    · subst h0
      exact congrArg Link.mark (h.setNext_next_self 0 _)
    · rw [hnext 0 h0]
      exact hi.head_unmarked
  · intro a ha hma
    rw [hre]
    by_cases hap : a = p
    · subst hap
      refine ⟨hpr, ?_⟩
      rintro rfl
      exact hi.sorted.irrefl _ (hi.link_below _ _ hpi)
    · rw [hnext a hap] at hma
      refine ⟨hi.unmarked_reachable a ha hma, ?_⟩
      rintro rfl
      rw [hmark] at hma
      exact absurd hma Bool.noConfusion
  · intro a u ha
    rw [hre]
    rcases (hmem a u).mp ha with ha | ha
    · obtain ⟨hl, hnr⟩ := hi.unlinked_gone a u ha
      exact ⟨hl, fun hr => hnr hr.1⟩
    · obtain rfl : a = i := congrArg Prod.fst ha
      exact ⟨hil, fun hr => hr.2 rfl⟩
  · simp only [Heap.unlink, List.map_append, List.map_singleton]
    refine List.nodup_append.mpr ⟨hi.unlinked_nodup, List.nodup_singleton _, ?_⟩
    intro a ha b hb
    rw [List.mem_singleton] at hb
    subst hb
    rintro rfl
    obtain ⟨⟨a', u⟩, hau, rfl⟩ := List.mem_map.mp ha
    exact (hi.unlinked_gone a' u hau).2 hir
  · intro a ha hnr
    rw [hre] at hnr
    by_cases hai : a = i
    · subst hai
      exact ⟨t, (hmem a t).mpr (Or.inr rfl)⟩
    · obtain ⟨u, hu⟩ := hi.gone_unlinked a ha fun hr => hnr ⟨hr, hai⟩
      exact ⟨u, (hmem a u).mpr (Or.inl hu)⟩
  · intro a u ha
    exact (hmem a u).mpr (Or.inl (hi.handed_unlinked a u ha))

/-- A marked node is unlinked. -/
theorem Rely.unlink {u p i : ℕ} {l : Option ℕ} (hp : h.Linked p)
    (hcas : (h.node p).next = ⟨some i, false⟩) : Rely u h (h.unlink t p i l) := by
  have hnext : ∀ b, b ≠ p → ((h.unlink t p i l).node b).next = (h.node b).next := fun b hb =>
    h.setNext_next_of_ne hb _
  refine ⟨le_rfl, fun b _ => h.setNext_key p b _, fun b hb => hb,
    fun b _ hmb => hnext b ?_, fun b h0 _ ho hl => ⟨hl, ho, hnext b ?_⟩,
    fun b hb => ⟨List.mem_append_left _ hb.1, hb.2⟩⟩
  · rintro rfl
    rw [hcas] at hmb
    exact absurd hmb Bool.noConfusion
  · rintro rfl
    exact hp.elim h0 hl

/-- A node is handed over by the thread that took it out. -/
theorem Inv.hand (hi : Inv h) {a : ℕ} (ha : Pending t h a) : Inv (h.hand t a) := by
  refine ⟨hi.brk_pos, hi.linked_lt, hi.fresh, hi.small, hi.link_linked, hi.link_below,
    hi.head_unmarked, hi.unmarked_reachable, hi.unlinked_gone, hi.unlinked_nodup,
    hi.gone_unlinked, ?_, ?_⟩
  · intro b u hb
    rcases List.mem_append.mp hb with hb | hb
    · exact hi.handed_unlinked b u hb
    · rw [List.mem_singleton] at hb
      rw [hb]
      exact ha.1
  · simp only [Heap.hand, List.map_append, List.map_singleton]
    refine List.nodup_append.mpr ⟨hi.handed_nodup, List.nodup_singleton _, ?_⟩
    intro b hb c hc
    rw [List.mem_singleton] at hc
    subst hc
    rintro rfl
    exact ha.2 hb

/-- A node is handed over by the thread that unlinked it. -/
theorem Rely.hand (hi : Inv h) {u a : ℕ} (ha : Pending t h a) (hu : u ≠ t) :
    Rely u h (h.hand t a) := by
  refine ⟨le_rfl, fun _ _ => rfl, fun _ hb => hb, fun _ _ _ => rfl,
    fun _ _ _ ho hl => ⟨hl, ho, rfl⟩, fun b hb => ⟨hb.1, ?_⟩⟩
  simp only [Heap.hand, List.map_append, List.map_singleton, List.mem_append,
    List.mem_singleton, not_or]
  refine ⟨hb.2, ?_⟩
  rintro rfl
  have hpair := List.inj_on_of_nodup_map hi.unlinked_nodup hb.1 ha.1 rfl
  exact hu (congrArg Prod.snd hpair)

end Updates

/-! ## Rely-guarantee -/

section Guarantee

variable {h : Heap} {t : ℕ} {op : Op} {pred : ℕ}

/-- The search returns with no node for the key. -/
theorem local_notFound (hp : Place h op.key pred) {item : Option ℕ}
    (hit : ∀ i, item = some i → i ∈ h.linked ∧ op.key < (h.node i).key) :
    Local t h (notFound op pred item) := by
  cases op with
  | lookup key => trivial
  | remove key => trivial
  | cas key expectation new =>
    simp only [notFound]
    split
    · trivial
    · exact ⟨hp, hit⟩

/-- The search returns with a node. -/
theorem local_found (hp : Place h op.key pred) {item : ℕ} (hit : item ∈ h.linked) :
    Local t h (found op pred item) := by
  cases op with
  | lookup key => trivial
  | remove key => exact ⟨hp.2.1, hit⟩
  | cas key expectation new => exact ⟨hp.1, hit⟩

/-- The search comes to a node. -/
theorem local_visit (hp : Place h op.key pred) {item : Option ℕ}
    (hit : ∀ i, item = some i → i ∈ h.linked) : Local t h (visit op pred item) := by
  cases item with
  | none => exact local_notFound hp fun i hi => absurd hi (Option.some_ne_none i).symm
  | some i => exact ⟨hp, hit i rfl⟩

/-- The search has loaded the link of a node. -/
theorem local_examine (hp : Place h op.key pred) {item : ℕ} (hit : item ∈ h.linked) {next : Link}
    (hn : ∀ b, next.node = some b → b ∈ h.linked)
    (hm : next.mark = true → (h.node item).next = next) :
    Local t h (examine op pred item next) := by
  unfold examine
  split
  · rename_i hmark
    split
    · exact ⟨hp, hit, hmark, hm hmark⟩
    · exact ⟨hp, hit⟩
  · exact ⟨hp, hit, hn⟩

/-- The condition of `SmallKey` on the steps of one thread. -/
def SmallCall (t : ℕ) (_h : Heap) (_pc : Pc) (c : Cmd) : Prop := SmallKey (t, c)

/-- The guarantee, by program counter. -/
theorem step_guarantee {h' : Heap} {pc pc' : Pc} {c : Cmd} (hi : Inv h) (hl : Local t h pc)
    (hok : SmallCall t h pc c) (hstep : step t h pc c = some (h', pc')) :
    Inv h' ∧ Local t h' pc' ∧ ∀ u, u ≠ t → Rely u h h' := by
  have hsame : ∀ {pc'}, Local t h pc' → Inv h ∧ Local t h pc' ∧ ∀ u, u ≠ t → Rely u h h :=
    fun hl' => ⟨hi, hl', fun u _ => Rely.refl u h⟩
  cases pc with
  | returned val =>
    cases c <;> cases hstep
    exact hsame hok
  | findHead op =>
    cases c <;> cases hstep
    refine hsame (local_visit ⟨hl, Or.inl rfl, Or.inl rfl⟩ fun i hi' => ?_)
    exact hi.link_linked 0 i hi'
  | findNext op pred item =>
    obtain ⟨hp, hit⟩ := hl
    cases c <;> cases hstep
    exact hsame (local_examine hp hit (fun b hb => hi.link_linked item b hb) fun _ => rfl)
  | findSkip op pred item =>
    obtain ⟨hp, hit⟩ := hl
    cases c <;> cases hstep
    exact hsame (local_visit hp fun b hb => hi.link_linked item b hb)
  | findKey op pred item next =>
    obtain ⟨hp, hit, hn⟩ := hl
    cases c <;> simp only [step, reduceCtorEq] at hstep
    have hk := hi.small item hit
    have hd : keyDiff (h.node item).key op.key = ((h.node item).key : ℤ) - op.key :=
      keyDiff_of_near (hk.trans_le (Nat.le_add_left _ _)) (hp.1.trans_le (Nat.le_add_left _ _))
    rw [hd] at hstep
    split at hstep
    · split at hstep <;> cases hstep
      · exact hsame (local_found hp hit)
      · refine hsame (local_notFound hp fun i hi' => ?_)
        cases hi'
        exact ⟨hit, by omega⟩
    · cases hstep
      exact hsame (local_visit ⟨hp.1, Or.inr hit, Or.inr (by omega)⟩ hn)
  | findUnlink op pred item next =>
    obtain ⟨hp, hit, hm, hn⟩ := hl
    cases c <;> simp only [step, reduceCtorEq] at hstep
    split at hstep
    · rename_i hcas
      cases hstep
      have hmark : (h.node item).next = ⟨next.node, true⟩ := by rw [hn, ← hm]
      obtain ⟨hinv, hr⟩ := hi.unlink (t := t) hp.2.1 hcas hmark
      have hrely : ∀ u, Rely u h (h.unlink t pred item next.node) := fun u =>
        Rely.unlink hp.2.1 hcas
      refine ⟨hinv, ⟨(hrely t).place hi hp, fun i hi' => ?_, ?_, ?_⟩, fun u _ => hrely u⟩
      · exact hi.link_linked item i (by rw [Heap.succ, hn]; exact hi')
      · exact List.mem_append_right _ (List.mem_singleton.mpr rfl)
      · intro hmem
        obtain ⟨⟨a, u⟩, hau, rfl⟩ := List.mem_map.mp hmem
        exact (hi.unlinked_gone a u (hi.handed_unlinked a u hau)).2 hr
    · split at hstep <;> cases hstep
      · exact hsame hp.1
      · exact hsame (local_visit hp fun b hb => hi.link_linked pred b hb)
  | findReload op pred item old =>
    obtain ⟨hp, hit, ho⟩ := hl
    cases item with
    | none =>
      cases c <;> cases hstep
      exact hsame ⟨hp, ho, fun i hi' => absurd hi' (Option.some_ne_none i).symm⟩
    | some i =>
      cases c <;> cases hstep
      refine hsame ⟨hp, ho, fun j hj => ?_⟩
      cases hj
      exact ⟨hit i rfl, fun b hb => hi.link_linked i b hb, fun _ => rfl⟩
  | findDefer op pred item next old =>
    obtain ⟨hp, ho, hit⟩ := hl
    have hinv := hi.hand ho
    -- handing over touches no node
    have hp' : Place (h.hand t old) op.key pred := hp
    cases item with
    | none =>
      cases c <;> cases hstep
      exact ⟨hinv, local_notFound hp' fun i hi' => absurd hi' (Option.some_ne_none i).symm,
        fun u hu => Rely.hand hi ho hu⟩
    | some i =>
      cases c <;> cases hstep
      obtain ⟨h₁, h₂, h₃⟩ := hit i rfl
      exact ⟨hinv, local_examine hp' h₁ h₂ h₃, fun u hu => Rely.hand hi ho hu⟩
  | lookupVal item =>
    cases c <;> cases hstep
    exact hsame trivial
  | casAlloc op new pred item =>
    obtain ⟨hp, hit⟩ := hl
    cases c <;> cases hstep
    refine ⟨hi.alloc _ hit, ⟨(Rely.alloc t h _).place hi hp, hi.brk_pos.ne', Nat.lt_succ_self _,
      fun hmem => ?_, ?_, ?_, ?_⟩, fun u _ => Rely.alloc u h _⟩
    · exact absurd (hi.linked_lt _ hmem).2 (lt_irrefl _)
    · simp [Heap.alloc]
    · rw [Heap.alloc_node_brk]
    · rw [Heap.alloc_node_brk]
  | casLink op pred next n =>
    obtain ⟨hp, h0, hn, hnl, ho, hk, hnx⟩ := hl
    cases c <;> simp only [step, reduceCtorEq] at hstep
    split at hstep <;> cases hstep
    · rename_i hcas
      have hlt : pred = 0 ∨ (h.node pred).key < (h.node n).key := by
        rw [hk]
        exact hp.2.2
      refine ⟨hi.link hp.2.1 h0 hn hnl (by rw [hk]; exact hp.1) hlt (hcas.trans hnx.symm)
        (by rw [hnx]), trivial, fun u hu => Rely.link hp.2.1 (by rw [hcas]) ho hu⟩
    · exact hsame hp.1
  | casVal op e new item =>
    cases c <;> cases hstep
    exact hsame hl
  | casUpdate op e new item old =>
    cases c <;> simp only [step, reduceCtorEq] at hstep
    split at hstep
    · cases hstep
      exact hsame hl.1
    · split at hstep
      · cases hstep
        exact hsame trivial
      · split at hstep <;> cases hstep
        · exact ⟨hi.setVal item new, trivial, fun u _ => Rely.setVal u h item new⟩
        · exact hsame hl
  | removeNext pred item =>
    cases c <;> cases hstep
    exact hsame hl
  | removeMark pred item next =>
    obtain ⟨hp, hit⟩ := hl
    cases c <;> simp only [step, reduceCtorEq] at hstep
    split at hstep
    · rename_i hcas
      subst hcas
      split at hstep <;> cases hstep
      · exact ⟨hi.mark hit, trivial, fun u _ => Rely.mark u hit⟩
      · exact ⟨hi.mark hit, ⟨hp, hit, h.setNext_next_self item _⟩, fun u _ => Rely.mark u hit⟩
    · split at hstep <;> cases hstep
      · exact hsame trivial
      · exact hsame ⟨hp, hit⟩
  | removeSwap pred item next =>
    obtain ⟨hp, hit, hn⟩ := hl
    cases c <;> cases hstep
    refine ⟨hi.setVal item _, ⟨hp, hit, ?_⟩, fun u _ => Rely.setVal u h item _⟩
    rw [Heap.setVal_next]
    exact hn
  | removeUnlink pred item next val =>
    obtain ⟨hp, hit, hn⟩ := hl
    cases c <;> simp only [step, reduceCtorEq] at hstep
    split at hstep <;> cases hstep
    · rename_i hcas
      obtain ⟨hinv, hr⟩ := hi.unlink (t := t) hp hcas hn
      refine ⟨hinv, ⟨List.mem_append_right _ (List.mem_singleton.mpr rfl), fun hmem => ?_⟩,
        fun u _ => Rely.unlink hp hcas⟩
      obtain ⟨⟨a, u⟩, hau, rfl⟩ := List.mem_map.mp hmem
      exact (hi.unlinked_gone a u (hi.handed_unlinked a u hau)).2 hr
    · exact hsame trivial
  | removeDefer item val =>
    cases c <;> cases hstep
    exact ⟨hi.hand hl, trivial, fun u hu => Rely.hand hi hl hu⟩

end Guarantee

/-- **Every thread keeps what the others rely on.** -/
theorem relyGuarantee : RelyGuarantee step SmallCall Inv Local Rely where
  guarantee := fun _ _ _ _ _ _ hi hl hok hstep => step_guarantee hi hl hok hstep
  stable := fun _ _ _ _ hi hr hl => Local.stable hi hr hl

/-- It holds at the start. -/
theorem init_holds : init.Holds Inv Local := by
  have hs : ∀ a, init.shared.succ a = none := fun _ => rfl
  refine ⟨⟨Nat.one_pos, ?_, fun a _ => hs a, ?_, ?_, ?_, rfl, ?_, ?_, List.nodup_nil, ?_, ?_,
    List.nodup_nil⟩, fun _ => trivial⟩
  · intro a ha
    exact absurd ha List.not_mem_nil
  · intro a ha
    exact absurd ha List.not_mem_nil
  · intro a b hab
    exact absurd (hab.symm.trans (hs a)) (Option.some_ne_none b)
  · intro a b hab
    exact absurd (hab.symm.trans (hs a)) (Option.some_ne_none b)
  · intro a ha
    exact absurd ha List.not_mem_nil
  · intro a u ha
    exact absurd ha List.not_mem_nil
  · intro a ha
    exact absurd ha List.not_mem_nil
  · intro a u ha
    exact absurd ha List.not_mem_nil

/-! ## Whole runs -/

/-- **It holds in every run.** -/
theorem holds_run {c c' : Conf Heap Pc} {es : List (ℕ × Cmd)} (hc : c.Holds Inv Local)
    (hkeys : ∀ e ∈ es, SmallKey e) (hrun : run sys c es = some c') : c'.Holds Inv Local :=
  relyGuarantee.holds_run hc (stepsMeet_of_forall_mem hkeys c) hrun

/-- The invariant says everything that `Heap.WellFormed` asks for. -/
theorem Inv.wellFormed {h : Heap} (hi : Inv h) : h.WellFormed where
  sorted := by
    intro a b _ hab ha
    exact (hi.link_below a b hab).2.resolve_left ha
  unique := by
    intro a b ha hb ha0 hb0 hk
    have hback : ∀ {x y}, Chain.Reach h.succ x y → x ≠ 0 → (h.node x).key = (h.node y).key →
        x = y := by
      intro x y hxy hx hkey
      rcases hxy.eq_or_lt hi.sorted with heq | hlt
      · exact heq
      · exact absurd (hlt.2.resolve_left hx) (by omega)
    rcases ha.total hb with hab | hba
    · exact hback hab ha0 hk
    · exact (hback hba hb0 hk.symm).symm
  marked := by
    intro a ha hnr
    by_contra hm
    exact hnr (hi.unmarked_reachable a ha (Bool.not_eq_true _ ▸ hm))
  unlinked_once := by
    intro a ha hnr
    obtain ⟨t, ht⟩ := hi.gone_unlinked a ha hnr
    -- the record of `a` is the only one with that address
    have hcount : (h.unlinked.map Prod.fst).count a = 1 :=
      List.count_eq_one_of_mem hi.unlinked_nodup (List.mem_map.mpr ⟨(a, t), ht, rfl⟩)
    rw [List.count, List.countP_map, List.countP_eq_length_filter] at hcount
    rw [← hcount]
    congr 1
  handed_by := hi.handed_unlinked
  handed_once := hi.handed_nodup
  handed_unreachable := fun a t ha => (hi.unlinked_gone a t (hi.handed_unlinked a t ha)).2

/-- What stays as it is from one state of a run to a later one. -/
structure Kept (h h' : Heap) : Prop where
  brk_le : h.brk ≤ h'.brk
  frozen : ∀ a, a < h.brk → (h.node a).next.mark = true → (h'.node a).next = (h.node a).next
  handed_sub : ∀ u ∈ h.handed, u ∈ h'.handed

/-- One stretch of a run after the other. -/
theorem Kept.trans {h₁ h₂ h₃ : Heap} (h₁₂ : Kept h₁ h₂) (h₂₃ : Kept h₂ h₃) : Kept h₁ h₃ where
  brk_le := h₁₂.brk_le.trans h₂₃.brk_le
  frozen := by
    intro a ha hm
    have hnext := h₁₂.frozen a ha hm
    rw [h₂₃.frozen a (ha.trans_le h₁₂.brk_le) (by rw [hnext]; exact hm), hnext]
  handed_sub := fun u hu => h₂₃.handed_sub u (h₁₂.handed_sub u hu)

/-- A node that was handed over stays on record. -/
theorem step_handed {t : ℕ} {h h' : Heap} {pc pc' : Pc} {c : Cmd}
    (hstep : step t h pc c = some (h', pc')) : h'.handed = h.handed ∨
      ∃ a, h'.handed = h.handed ++ [(a, t)] := by
  unfold step at hstep
  dsimp only at hstep
  -- only the two `Defer` steps append to the record
  repeat' split at hstep
  all_goals cases hstep
  all_goals first
    | exact Or.inl rfl
    | exact Or.inr ⟨_, rfl⟩

/-- One step keeps what was removed removed. -/
theorem Kept.step {c c' : Conf Heap Pc} {e : ℕ × Cmd} (hc : c.Holds Inv Local)
    (hkey : SmallKey e) (hstep : sys c e = some c') : Kept c.shared c'.shared := by
  obtain ⟨pc', hprog, _⟩ := interleave_eq_some.mp hstep
  obtain ⟨_, _, hrely⟩ := step_guarantee hc.1 (hc.2 e.1) hkey hprog
  -- what any other thread may rely on
  have hr := hrely (e.1 + 1) (Nat.succ_ne_self e.1)
  refine ⟨hr.brk_le, hr.frozen, fun u hu => ?_⟩
  rcases step_handed hprog with heq | ⟨a, heq⟩
  · rw [heq]
    exact hu
  · rw [heq]
    exact List.mem_append_left _ hu

/-- So does a run. -/
theorem Kept.run {c c' : Conf Heap Pc} {es : List (ℕ × Cmd)} (hc : c.Holds Inv Local)
    (hkeys : ∀ e ∈ es, SmallKey e) (hrun : run sys c es = some c') :
    Kept c.shared c'.shared := by
  have hstep : ∀ d e d', (d.Holds Inv Local ∧ Kept c.shared d.shared) → SmallKey e →
      sys d e = some d' → d'.Holds Inv Local ∧ Kept c.shared d'.shared := by
    rintro d e d' ⟨hd, hk⟩ hkey hstep
    exact ⟨relyGuarantee.holds_step hd hkey hstep, hk.trans (Kept.step hd hkey hstep)⟩
  have hrefl : Kept c.shared c.shared := ⟨le_rfl, fun _ _ _ => rfl, fun _ hu => hu⟩
  exact (run_invariant hstep ⟨hc, hrefl⟩ (stepsMeet_of_forall_mem hkeys c) hrun).2

/-- **Structure and reclamation.**  For any number of threads and any interleaving
of calls on keys below `2 ^ 31`: every state reached is well formed, and from it
on, whatever the threads do next, a marked link stays as it is and a node handed
over is not reached from `ll->head`. -/
theorem list_structure_and_reclamation (es : List (ℕ × Cmd)) (c : Conf Heap Pc)
    (hkeys : ∀ e ∈ es, SmallKey e) (hrun : run sys init es = some c) :
    c.shared.WellFormed
      ∧ ∀ es' c', (∀ e ∈ es', SmallKey e) → run sys c es' = some c' →
          (∀ a, a < c.shared.brk → (c.shared.node a).next.mark = true →
            (c'.shared.node a).next = (c.shared.node a).next)
          ∧ ∀ a t, (a, t) ∈ c.shared.handed → ¬ c'.shared.Reachable a := by
  have hc := holds_run init_holds hkeys hrun
  refine ⟨hc.1.wellFormed, fun es' c' hkeys' hrun' => ?_⟩
  have hk := Kept.run hc hkeys' hrun'
  refine ⟨hk.frozen, fun a t ha => ?_⟩
  exact (holds_run hc hkeys' hrun').1.wellFormed.handed_unreachable a t (hk.handed_sub _ ha)

/-- Thread 0 inserts key 5, thread 1 removes it and hands its node over. -/
def insertRemoveRun : List (ℕ × Cmd) :=
  (0, Cmd.call (.cas 5 expectWhatever 7)) :: List.replicate 3 (0, Cmd.resume)
    ++ (1, Cmd.call (.remove 5)) :: List.replicate 8 (1, Cmd.resume)

/-- A node is inserted, removed and deferred. -/
theorem list_structure_and_reclamation_insert_remove :
    ∃ c c', run sys init insertRemoveRun = some c ∧ c.shared.handed = [(1, 1)]
      ∧ run sys c [(0, .call (.lookup 5)), (0, .resume)] = some c'
      ∧ (c'.shared.node 1).next = (c.shared.node 1).next ∧ ¬ c'.shared.Reachable 1 := by
  have h : (run sys init insertRemoveRun).map (fun c =>
      (c.shared.handed, c.shared.brk, (c.shared.node 1).next.mark, c.thread 0)) =
        some ([(1, 1)], 2, true, .returned 0) := by decide
  obtain ⟨c, hc, hf⟩ := Option.map_eq_some_iff.mp h
  simp only [Prod.mk.injEq] at hf
  obtain ⟨hhand, hbrk, hmark, hpc⟩ := hf
  have h' : (run sys c [(0, .call (.lookup 5)), (0, .resume)]).isSome := by
    simp [run, interleave, hpc, step]
  obtain ⟨c', hc'⟩ := Option.isSome_iff_exists.mp h'
  obtain ⟨_, hlater⟩ := list_structure_and_reclamation insertRemoveRun c
    (by simp [insertRemoveRun, SmallKey, Op.key]) hc
  obtain ⟨hfrozen, hgone⟩ := hlater _ c' (by simp [SmallKey, Op.key]) hc'
  refine ⟨c, c', hc, hhand, hc', hfrozen 1 (by omega) hmark, hgone 1 1 ?_⟩
  rw [hhand]
  exact List.mem_singleton.mpr rfl

end LinkedList
