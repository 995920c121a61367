/-
# The levels of the skiplist do not depend on its values

No search and no insertion asks whether a node still has its value, so that a run goes on as it
does when no value is ever taken out and no node handed over.  In that run the levels are chains
(`step_keeps`), whatever comes late in the other.

* `Heap.blind`, `Pc.blind` — the skiplist without its values;
* `step_blind` — a step is one of the skiplist without its values, or none;
* `keeps_blind` — the levels are chains in every run with keys below `2 ^ 31`.
-/
import Ssr.SkipListReclaim

open Interleaving Map
open LinkedList (Link)

namespace SkipList

/-! ## Without the values -/

/-- The skiplist whose values are never taken out. -/
def Heap.blind (h : Heap) : Heap :=
  { h with
    node := fun a => { h.node a with val := 1 }
    handed := [] }

/-- The arguments with some value. -/
def Cas.blind (args : Cas) : Cas := { args with new := 1 }

/-- The caller whose value is never taken out. -/
def Caller.blind : Caller → Caller
  | .cas args n => .cas args.blind n
  | .unlinkRemoved key _ _ => .clean key
  | c => c

/-- Where the thread stands when no value is ever taken out. -/
def Pc.blind : Pc → Pc
  | .findStart c path => .findStart c.blind path
  | .findPred c f => .findPred c.blind f
  | .findNext c f item => .findNext c.blind f item
  | .findUnlink c f item next => .findUnlink c.blind f item next
  | .findKey c f item next => .findKey c.blind f item next
  | .casRandom args => .casRandom args.blind
  | .casHighWater args levels => .casHighWater args.blind levels
  | .casRaise args => .casRaise args.blind
  | .casVal args item => .casVal args.blind item
  | .casUpdate args item old => .casUpdate args.blind item old
  | .casAlloc args n path => .casAlloc args.blind n path
  | .casBottom args ins => .casBottom args.blind ins
  | .removeDefer _ _ => .returned doesNotExist
  | pc => pc

section Blind

variable {h h' : Heap} {c : Caller} {pc pc' : Pc} {cmd : Cmd}

/-- The key is not a value. -/
@[simp] theorem Caller.blind_key (c : Caller) : c.blind.key = c.key := by
  cases c <;> rfl

/-- Nor is the number of levels. -/
@[simp] theorem Caller.blind_n (c : Caller) : c.blind.n = c.n := by
  cases c <;> rfl

/-- Nor is the way in which it unlinks. -/
@[simp] theorem Caller.blind_unlink (c : Caller) : c.blind.unlink = c.unlink := by
  cases c <;> rfl

/-- Nor are the links. -/
@[simp] theorem Heap.blind_next (h : Heap) (a level : ℕ) : h.blind.next a level = h.next a level :=
  rfl

/-- A store into a link. -/
theorem Heap.blind_setNext (h : Heap) (a level : ℕ) (l : Link) :
    (h.setNext a level l).blind = h.blind.setNext a level l := by
  simp only [Heap.blind, Heap.setNext, Heap.mk.injEq, and_true]
  funext b
  by_cases hb : b = a
  · subst hb
    simp
  · simp [hb]

/-- A CAS of a link. -/
theorem Heap.blind_cas (h : Heap) (a level : ℕ) (old new : Link) :
    (if h.next a level = old then h.setNext a level new else h).blind
      = if h.blind.next a level = old then h.blind.setNext a level new else h.blind := by
  by_cases hold : h.next a level = old
  · exact (congrArg Heap.blind (if_pos hold)).trans
      ((h.blind_setNext a level new).trans (if_pos hold).symm)
  · exact (congrArg Heap.blind (if_neg hold)).trans (if_neg hold).symm

/-- A store of a value is not seen. -/
theorem Heap.blind_setVal (h : Heap) (a v : ℕ) : (h.setVal a v).blind = h.blind := by
  simp only [Heap.blind, Heap.setVal, Heap.mk.injEq, and_true]
  funext b
  by_cases hb : b = a
  · subst hb
    simp
  · simp [hb]

/-- A new node. -/
theorem Heap.blind_alloc (h : Heap) (args : Cas) (n : ℕ) (succs : ℕ → Option ℕ) :
    (h.alloc args n succs).blind = h.blind.alloc args.blind n succs := by
  simp only [Heap.blind, Heap.alloc, Heap.mk.injEq, and_true]
  funext b
  by_cases hb : b = h.brk
  · subst hb
    simp [Cas.blind]
  · simp [hb]

/-- A search returns to its caller. -/
@[simp] theorem blind_resume (c : Caller) (path : Path) (item : Option ℕ) :
    (resume c path item).blind = resume c.blind path item := by
  cases c with
  | lookup key | remove key n => cases item <;> rfl
  | cas args n =>
    cases item with
    | some i => rfl
    | none =>
      simp only [resume, Caller.blind, Cas.blind]
      split_ifs <;> rfl
  | relink key newItem n level =>
    simp only [resume, Caller.blind, reloadLevel]
    split_ifs <;> rfl
  | clean | unlinkRemoved => rfl

/-- A search goes down. -/
@[simp] theorem blind_descend (c : Caller) (f : Find) (level : ℕ) :
    (descend c f level).blind = descend c.blind f level := by
  cases level with
  | zero => exact blind_resume c _ _
  | succ level => rfl

/-- A level is done. -/
@[simp] theorem blind_levelDone (c : Caller) (f : Find) (item : Option ℕ) :
    (levelDone c f item).blind = levelDone c.blind f item := by
  simp only [levelDone, blind_descend, Caller.blind_n]

/-- A search comes to a node. -/
@[simp] theorem blind_visit (c : Caller) (f : Find) (item : Option ℕ) :
    (visit c f item).blind = visit c.blind f item := by
  cases item with
  | none => exact blind_levelDone c f none
  | some i => rfl

/-- A search has loaded the link of a node. -/
@[simp] theorem blind_examine (c : Caller) (f : Find) (item : ℕ) (next : Link) :
    (examine c f item next).blind = examine c.blind f item next := by
  simp only [examine, Caller.blind_unlink]
  split_ifs
  · exact blind_visit c f next.node
  · rfl
  · rfl

/-- An insertion goes on with its upper levels. -/
@[simp] theorem blind_linkLevel (key : ℕ) (ins : Insert) (level : ℕ) :
    (linkLevel key ins level).blind = linkLevel key ins level := by
  unfold linkLevel
  split_ifs <;> rfl

/-- So it does after a level. -/
@[simp] theorem blind_reloadLevel (key : ℕ) (ins : Insert) (level i : ℕ) :
    (reloadLevel key ins level i).blind = reloadLevel key ins level i := by
  unfold reloadLevel
  split_ifs <;> rfl

/-- A removal marks the next level below. -/
@[simp] theorem blind_markLevel (key item level : ℕ) :
    (markLevel key item level).blind = markLevel key item level := by
  cases level <;> rfl

/-- The step looks at a value, or takes one out. -/
def Pc.sees : Pc → Bool
  | .lookupVal _ | .casVal _ _ | .casUpdate _ _ _ | .removeSwap _ _ | .removeDefer _ _ => true
  | _ => false

/-- **The simulation**: a step that does not look at the values is one without them. -/
theorem step_blind (hsees : pc.sees = false) (hcall : ∀ op, cmd ≠ .call op)
    (hstep : step h pc cmd = some (h', pc')) :
    step h.blind pc.blind cmd = some (h'.blind, pc'.blind) := by
  cases pc with
  | lookupVal | casVal | casUpdate | removeSwap | removeDefer => cases hsees
  | returned val =>
    cases cmd with
    | call op => exact absurd rfl (hcall op)
    | rand | resume => cases hstep
  | findStart c path =>
    cases cmd <;> cases hstep
    rw [blind_descend]
    rfl
  | findNext c f item =>
    cases cmd <;> cases hstep
    rw [blind_examine]
    rfl
  | findPred c f =>
    cases cmd <;> simp only [step, reduceCtorEq] at hstep
    change step h.blind (.findPred c.blind f) _ = _
    simp only [step]
    rw [← Caller.blind_n] at hstep
    split_ifs at hstep with h₁ h₂ <;> cases hstep
    · exact (if_pos h₁).trans (by rw [blind_descend])
    · exact (if_neg h₁).trans (if_pos h₂)
    · exact (if_neg h₁).trans ((if_neg h₂).trans (by rw [blind_visit]; rfl))
  | findUnlink c f item next =>
    cases cmd <;> simp only [step, reduceCtorEq] at hstep
    change step h.blind (.findUnlink c.blind f item next) _ = _
    simp only [step]
    split_ifs at hstep with h₁ h₂ <;> cases hstep
    · exact (if_pos h₁).trans (by rw [blind_visit, Heap.blind_setNext])
    · exact (if_neg h₁).trans (if_pos h₂)
    · exact (if_neg h₁).trans ((if_neg h₂).trans (by rw [blind_visit]; rfl))
  | findKey c f item next =>
    cases cmd <;> simp only [step, reduceCtorEq] at hstep
    change step h.blind (.findKey c.blind f item next) _ = _
    simp only [step]
    rw [← Caller.blind_key, ← Caller.blind_unlink] at hstep
    split_ifs at hstep with h₁ <;> cases hstep
    · exact (if_pos h₁).trans (by rw [blind_levelDone]; rfl)
    · exact (if_neg h₁).trans (by rw [blind_visit]; rfl)
  | casRandom args =>
    cases cmd <;> simp only [step, reduceCtorEq] at hstep
    change step h.blind (.casRandom args.blind) _ = _
    simp only [step]
    split_ifs at hstep ⊢ <;> cases hstep <;> rfl
  | casHighWater args levels =>
    cases cmd <;> simp only [step, reduceCtorEq] at hstep
    change step h.blind (.casHighWater args.blind levels) _ = _
    simp only [step]
    split_ifs at hstep with h₁ <;> cases hstep
    · exact if_pos h₁
    · exact if_neg h₁
  | casRaise args | removeHighWater key =>
    cases cmd <;> cases hstep
    rfl
  | removeLevels key item =>
    cases cmd <;> cases hstep
    rw [blind_markLevel]
    rfl
  | removeNext key item level =>
    cases cmd <;> cases hstep
    rfl
  | casAlloc args n path =>
    cases cmd <;> cases hstep
    rw [Heap.blind_alloc]
    rfl
  | casBottom args ins =>
    cases cmd <;> simp only [step, reduceCtorEq] at hstep
    change step h.blind (.casBottom args.blind ins) _ = _
    simp only [step]
    split_ifs at hstep with h₁ <;> cases hstep
    · exact (if_pos h₁).trans (by rw [blind_linkLevel, Heap.blind_setNext]; rfl)
    · exact if_neg h₁
  | casLink key ins level =>
    cases cmd <;> simp only [step, reduceCtorEq] at hstep
    change step h.blind (.casLink key ins level) _ = _
    simp only [step]
    split_ifs at hstep with h₁ <;> cases hstep
    · exact (if_pos h₁).trans (by rw [blind_linkLevel, Heap.blind_setNext])
    · exact if_neg h₁
  | casReload key ins level i =>
    cases cmd <;> simp only [step, reduceCtorEq] at hstep
    change step h.blind (.casReload key ins level i) _ = _
    simp only [step]
    split_ifs at hstep with h₁ <;> cases hstep
    · exact (if_pos h₁).trans (by rw [blind_reloadLevel])
    · exact if_neg h₁
  | casCheck key ins =>
    cases cmd <;> simp only [step, reduceCtorEq] at hstep
    change step h.blind (.casCheck key ins) _ = _
    simp only [step]
    split_ifs at hstep with h₁ <;> cases hstep
    · exact if_pos h₁
    · exact if_neg h₁
  | casStore key ins level i old =>
    cases cmd <;> simp only [step, reduceCtorEq] at hstep
    change step h.blind (.casStore key ins level i old) _ = _
    simp only [step]
    by_cases hm : (h.next ins.newItem i).mark = true
    · rw [if_pos hm] at hstep
      cases hstep
      exact (if_pos hm).trans (by rw [Heap.blind_cas]; rfl)
    · rw [if_neg hm] at hstep
      cases hstep
      exact (if_neg hm).trans (by rw [Heap.blind_cas, blind_reloadLevel])
  | removeMark key item level next =>
    cases cmd <;> simp only [step, reduceCtorEq] at hstep
    change step h.blind (.removeMark key item level next) _ = _
    simp only [step]
    have hstore := h.blind_cas item level next ⟨next.node, true⟩
    by_cases hm : (h.next item level).mark = true
    · rw [if_pos hm] at hstep
      refine (if_pos hm).trans ?_
      by_cases hl : level = 0
      · rw [if_pos hl] at hstep
        cases hstep
        exact (if_pos hl).trans (by rw [hstore]; rfl)
      · rw [if_neg hl] at hstep
        cases hstep
        exact (if_neg hl).trans (by rw [hstore, blind_markLevel])
    · rw [if_neg hm] at hstep
      refine (if_neg hm).trans ?_
      by_cases h₁ : h.next item level = next
      · rw [if_pos h₁] at hstep
        cases hstep
        exact (if_pos h₁).trans (by rw [hstore, blind_markLevel])
      · rw [if_neg h₁] at hstep
        cases hstep
        exact (if_neg h₁).trans (by rw [hstore]; rfl)

/-! ## Small keys -/

/-- The key of a call. -/
def Op.key : Op → ℕ
  | .lookup key | .remove key => key
  | .cas args => args.key

/-- The key that a thread works on. -/
def Pc.keyOf : Pc → ℕ
  | .returned _ | .lookupVal _ | .removeDefer _ _ => 0
  | .findStart c _ | .findPred c _ | .findNext c _ _ | .findUnlink c _ _ _ | .findKey c _ _ _ =>
    c.key
  | .casRandom args | .casHighWater args _ | .casRaise args | .casVal args _
  | .casUpdate args _ _ | .casAlloc args _ _ | .casBottom args _ => args.key
  | .casLink key _ _ | .casReload key _ _ _ | .casStore key _ _ _ _ | .casCheck key _
  | .removeHighWater key | .removeLevels key _ | .removeNext key _ _ | .removeMark key _ _ _
  | .removeSwap key _ => key

/-- The key of an insertion. -/
theorem keyOf_linkLevel (key : ℕ) (ins : Insert) (level : ℕ) :
    (linkLevel key ins level).keyOf = key := by
  unfold linkLevel
  split_ifs <;> rfl

/-- So it is after a level. -/
theorem keyOf_reloadLevel (key : ℕ) (ins : Insert) (level i : ℕ) :
    (reloadLevel key ins level i).keyOf = key := by
  unfold reloadLevel
  split_ifs <;> rfl

/-- The key of a removal. -/
theorem keyOf_markLevel (key item level : ℕ) : (markLevel key item level).keyOf = key := by
  cases level <;> rfl

/-- The key after a search, or none when it returns. -/
theorem keyOf_resume (c : Caller) (path : Path) (item : Option ℕ) :
    (resume c path item).keyOf = c.key ∨ (resume c path item).keyOf = 0 := by
  cases c with
  | lookup key => cases item <;> exact .inr rfl
  | remove key n =>
    cases item with
    | none => exact .inr rfl
    | some i => exact .inl rfl
  | cas args n =>
    cases item with
    | some i => exact .inl rfl
    | none =>
      simp only [resume]
      split_ifs
      · exact .inr rfl
      · exact .inl rfl
  | relink key newItem n level => exact .inl (keyOf_reloadLevel key _ level level)
  | clean | unlinkRemoved => exact .inr rfl

/-- The key of a search that goes down. -/
theorem keyOf_descend (c : Caller) (f : Find) (level : ℕ) :
    (descend c f level).keyOf = c.key ∨ (descend c f level).keyOf = 0 := by
  cases level with
  | zero => exact keyOf_resume c _ _
  | succ level => exact .inl rfl

/-- The key of a search that comes to a node. -/
theorem keyOf_visit (c : Caller) (f : Find) (item : Option ℕ) :
    (visit c f item).keyOf = c.key ∨ (visit c f item).keyOf = 0 := by
  cases item with
  | none => exact keyOf_descend c _ _
  | some i => exact .inl rfl

/-- The key of a search that has loaded a link. -/
theorem keyOf_examine (c : Caller) (f : Find) (item : ℕ) (next : Link) :
    (examine c f item next).keyOf = c.key ∨ (examine c f item next).keyOf = 0 := by
  unfold examine
  split_ifs
  · exact keyOf_visit c f next.node
  · exact .inl rfl
  · exact .inl rfl

/-- A thread works on the key of its call. -/
theorem step_keyOf (hcall : ∀ op, cmd ≠ .call op) (hstep : step h pc cmd = some (h', pc')) :
    pc'.keyOf = pc.keyOf ∨ pc'.keyOf = 0 := by
  cases pc with
  | returned val =>
    cases cmd with
    | call op => exact absurd rfl (hcall op)
    | rand | resume => cases hstep
  | findStart c path =>
    cases cmd <;> cases hstep
    exact keyOf_descend c _ _
  | findNext c f item =>
    cases cmd <;> cases hstep
    exact keyOf_examine c f item _
  | findPred c f =>
    cases cmd <;> simp only [step, reduceCtorEq] at hstep
    split_ifs at hstep <;> cases hstep
    · exact keyOf_descend c _ _
    · exact .inl rfl
    · exact keyOf_visit c _ _
  | findUnlink c f item next =>
    cases cmd <;> simp only [step, reduceCtorEq] at hstep
    split_ifs at hstep <;> cases hstep
    · exact keyOf_visit c _ _
    · exact .inl rfl
    · exact keyOf_visit c _ _
  | findKey c f item next =>
    cases cmd <;> simp only [step, reduceCtorEq] at hstep
    split_ifs at hstep <;> cases hstep
    · exact keyOf_descend c _ _
    · exact keyOf_visit c _ _
  | lookupVal | removeSwap | removeDefer | casRaise | removeHighWater | removeNext =>
    cases cmd <;> cases hstep
    exact .inl rfl
  | casRandom | casHighWater | casVal | casUpdate | casCheck =>
    cases cmd <;> simp only [step, reduceCtorEq] at hstep
    split_ifs at hstep
    all_goals
      cases hstep
      first
        | exact .inl rfl
        | exact .inr rfl
  | casAlloc args n path =>
    cases cmd <;> cases hstep
    exact .inl rfl
  | casBottom args ins =>
    cases cmd <;> simp only [step, reduceCtorEq] at hstep
    split_ifs at hstep <;> cases hstep
    · exact .inl (keyOf_linkLevel args.key ins 1)
    · exact .inl rfl
  | casLink key ins level =>
    cases cmd <;> simp only [step, reduceCtorEq] at hstep
    split_ifs at hstep <;> cases hstep
    · exact .inl (keyOf_linkLevel key ins _)
    · exact .inl rfl
  | casReload key ins level i =>
    cases cmd <;> simp only [step, reduceCtorEq] at hstep
    split_ifs at hstep <;> cases hstep
    · exact .inl (keyOf_reloadLevel key ins level _)
    · exact .inl rfl
  | casStore key ins level i old =>
    cases cmd <;> simp only [step, reduceCtorEq] at hstep
    by_cases hm : (h.next ins.newItem i).mark = true
    · rw [if_pos hm] at hstep
      cases hstep
      exact .inl rfl
    · rw [if_neg hm] at hstep
      cases hstep
      exact .inl (keyOf_reloadLevel key ins level _)
  | removeLevels key item =>
    cases cmd <;> cases hstep
    exact .inl (keyOf_markLevel key item _)
  | removeMark key item level next =>
    cases cmd <;> simp only [step, reduceCtorEq] at hstep
    split_ifs at hstep
    all_goals
      cases hstep
      first
        | exact .inr rfl
        | exact .inl (keyOf_markLevel key item level)
        | exact .inl rfl

/-- The keys of the nodes come with the calls. -/
theorem step_key (hstep : step h pc cmd = some (h', pc')) (a : ℕ) :
    (h'.node a).key = (h.node a).key ∨ (h'.node a).key = pc.keyOf := by
  cases pc with
  | returned val =>
    cases cmd with
    | call op => cases op <;> cases hstep <;> exact .inl rfl
    | rand | resume => cases hstep
  | casAlloc args n path =>
    cases cmd <;> cases hstep
    by_cases ha : a = h.brk
    · right
      rw [ha]
      simp [Heap.alloc, Pc.keyOf]
    · left
      simp [Heap.alloc, ha]
  | casUpdate args item old =>
    cases cmd <;> simp only [step, reduceCtorEq] at hstep
    split_ifs at hstep <;> cases hstep
    · exact .inl (h.key_setVal item args.new a)
    · exact .inl rfl
  | removeSwap key item =>
    cases cmd <;> cases hstep
    exact .inl (h.key_setVal item _ a)
  | findUnlink c f item next =>
    cases cmd <;> simp only [step, reduceCtorEq] at hstep
    split_ifs at hstep <;> cases hstep
    · exact .inl (h.key_setNext _ _ _ a)
    · exact .inl rfl
    · exact .inl rfl
  | casBottom args ins | casLink key ins level =>
    cases cmd <;> simp only [step, reduceCtorEq] at hstep
    split_ifs at hstep <;> cases hstep
    · exact .inl (h.key_setNext _ _ _ a)
    · exact .inl rfl
  | casStore key ins level i old | removeMark key item level next =>
    cases cmd <;> simp only [step, reduceCtorEq] at hstep
    split_ifs at hstep
    all_goals
      cases hstep
      first
        | exact .inl rfl
        | exact .inl (h.key_setNext _ _ _ a)
  | findPred | findKey | casRandom | casHighWater | casVal | casReload | casCheck =>
    cases cmd <;> simp only [step, reduceCtorEq] at hstep
    split_ifs at hstep
    all_goals
      cases hstep
      exact .inl rfl
  | findStart | findNext | lookupVal | casRaise | removeHighWater | removeLevels | removeNext
  | removeDefer =>
    cases cmd <;> cases hstep
    exact .inl rfl

/-! ## The levels -/

/-- The shared invariant: the levels are chains, and the keys are small. -/
structure Sound (h : Heap) (g : Story) : Prop where
  inv : Inv h.blind g
  small : ∀ a, (h.node a).key < 2 ^ 31

/-- The local invariant. -/
structure Pc.Sound (t : ℕ) (h : Heap) (g : Story) (pc : Pc) : Prop where
  leveled : pc.blind.Leveled h.highWater
  safe : pc.blind.Safe t h.blind g
  small : pc.keyOf < 2 ^ 31

variable {t : ℕ} {g : Story}

/-- With small keys every comparison is exact, and no node is without its value. -/
theorem timely_blind (hs : Sound h g) (hp : pc.keyOf < 2 ^ 31) :
    Timely t h.blind pc.blind cmd := by
  cases pc with
  | findKey c f item next =>
    intro _
    rw [Caller.blind_key]
    refine exact_of_near (Nat.lt_of_lt_of_le (hs.small item) (Nat.le_add_left _ _)) ?_
    exact hp.trans_le (Nat.le_add_left _ _)
  | casLink key ins level => exact fun _ => Nat.one_ne_zero
  | _ => trivial

/-- A call starts with nothing to know. -/
theorem keeps_call {op : Op} (hs : Sound h g) (hstep : step h pc (.call op) = some (h', pc')) :
    Keeps t h.blind g h'.blind (g.after t h.blind pc.blind (.call op)) pc'.blind
      ∧ pc'.blind.Leveled h'.highWater ∧ pc'.keyOf = op.key := by
  cases pc with
  | returned val =>
    cases op <;> cases hstep <;> exact ⟨Keeps.same hs.inv trivial, trivial, rfl⟩
  | _ => simp only [step, reduceCtorEq] at hstep

/-- A step that looks at the values moves no link. -/
theorem keeps_sees (hs : Sound h g) (hsees : pc.sees = true) (hcall : ∀ op, cmd ≠ .call op)
    (hstep : step h pc cmd = some (h', pc')) :
    Keeps t h.blind g h'.blind (g.after t h.blind pc.blind cmd) pc'.blind
      ∧ pc'.blind.Leveled h'.highWater := by
  cases pc with
  | lookupVal item =>
    cases cmd <;> cases hstep
    exact ⟨Keeps.same hs.inv trivial, trivial⟩
  | casVal args item =>
    cases cmd <;> simp only [step, reduceCtorEq] at hstep
    split_ifs at hstep with h₁ <;> cases hstep
    · exact ⟨Keeps.same hs.inv trivial, trivial⟩
    · exact ⟨Keeps.same hs.inv trivial, trivial⟩
    · exact ⟨Keeps.same hs.inv h₁, trivial⟩
  | casUpdate args item old =>
    cases cmd <;> simp only [step, reduceCtorEq] at hstep
    split_ifs at hstep <;> cases hstep
    · rw [Heap.blind_setVal]
      exact ⟨Keeps.same hs.inv trivial, trivial⟩
    · exact ⟨Keeps.same hs.inv trivial, trivial⟩
  | removeSwap key item =>
    cases cmd <;> cases hstep
    rw [Heap.blind_setVal]
    exact ⟨Keeps.same hs.inv trivial, trivial⟩
  | removeDefer item val =>
    cases cmd <;> cases hstep
    exact ⟨Keeps.same hs.inv trivial, trivial⟩
  | _ => cases hsees

/-- **One step of a thread**, whatever the other threads are at. -/
theorem keeps_blind (hs : Sound h g) (hp : pc.Sound t h g)
    (hcmd : ∀ op, cmd = .call op → op.key < 2 ^ 31) (hstep : step h pc cmd = some (h', pc')) :
    Does t h.blind g h'.blind (g.after t h.blind pc.blind cmd)
      ∧ Sound h' (g.after t h.blind pc.blind cmd)
      ∧ pc'.Sound t h' (g.after t h.blind pc.blind cmd) := by
  have hsmall : ∀ a, (h'.node a).key < 2 ^ 31 := by
    intro a
    rcases step_key hstep a with heq | heq <;> rw [heq]
    · exact hs.small a
    · exact hp.small
  have hkeeps : Keeps t h.blind g h'.blind (g.after t h.blind pc.blind cmd) pc'.blind
      ∧ pc'.blind.Leveled h'.highWater ∧ pc'.keyOf < 2 ^ 31 := by
    by_cases hcall : ∃ op, cmd = .call op
    · obtain ⟨op, rfl⟩ := hcall
      obtain ⟨hkeeps, hlev, hkey⟩ := keeps_call (t := t) hs hstep
      exact ⟨hkeeps, hlev, hkey ▸ hcmd op rfl⟩
    · replace hcall : ∀ op, cmd ≠ .call op := fun op heq => hcall ⟨op, heq⟩
      have hkey : pc'.keyOf < 2 ^ 31 := by
        rcases step_keyOf hcall hstep with heq | heq <;> rw [heq]
        · exact hp.small
        · exact Nat.two_pow_pos 31
      cases hsees : pc.sees with
      | true =>
        obtain ⟨hkeeps, hlev⟩ := keeps_sees (t := t) hs hsees hcall hstep
        exact ⟨hkeeps, hlev, hkey⟩
      | false =>
        have hblind := step_blind hsees hcall hstep
        have hlev : pc'.blind.Leveled h'.blind.highWater :=
          step_leveled hs.inv.water_pos hp.leveled hblind
        exact ⟨step_keeps hs.inv hp.leveled hp.safe (timely_blind hs hp.small) hblind, hlev, hkey⟩
  obtain ⟨⟨hdoes, hsafe⟩, hlev, hkey⟩ := hkeeps
  exact ⟨hdoes, ⟨hdoes.inv, hsmall⟩, ⟨hlev, hsafe, hkey⟩⟩

end Blind

end SkipList
