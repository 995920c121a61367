/-
# The blocks of `cmpool` are exclusive

The layout is arithmetic that does not wrap.  For the runs, the blocks that a thread has
are the one that its call is about and those it holds (`has`); a block is in state
`NST_USED` exactly when a thread has it, and then one thread has it, once.  Whichever of
the two compare-and-swaps of `regbufidx` succeeds, it takes a block that nobody has; the
hint in `latestidx` only has to stay an index.
-/
import Ssr.Cmpool
import Ssr.Placement

open Interleaving Placement

namespace Cmpool

/-! ## The layout -/

section Layout

variable {mbase msize blksz : ℕ} {head old : Head} {i j : ℤ}

/-- A sum that does not wrap. -/
theorem add_of_lt {a b : ℕ} (h : a + b < 2 ^ 64) : add a b = a + b := Nat.mod_eq_of_lt h

/-- A product that does not wrap. -/
theorem mul_of_lt {a b : ℕ} (h : a * b < 2 ^ 64) : mul a b = a * b := Nat.mod_eq_of_lt h

/-- A difference that does not wrap. -/
theorem sub_of_le {a b : ℕ} (h : b ≤ a) (ha : a < 2 ^ 64) : sub a b = a - b := by
  unfold sub
  omega

/-- Numbers that fit are converted to themselves. -/
theorem toInt_of_le {x : ℕ} (h : x ≤ 2 ^ 31 - 1) : toInt x = x := by
  unfold toInt
  apply Int.bmod_eq_of_le <;> omega

/-- A header as `cmpool_init` writes it. -/
structure Formatted (mbase msize : ℕ) (head : Head) : Prop where
  block : 1 ≤ head.blksz
  indices : head.blknum ≤ 2 ^ 31 - 1
  base : 0 < mbase
  fits : mbase + msize ≤ 2 ^ 64
  blockbase : head.blockbase = headSize + head.blknum * nodeSize
  within : head.blockbase + head.blknum * head.blksz ≤ msize
  offset : ∀ i, InRange head i → head.offset i = head.blockbase + i.toNat * head.blksz

/-- **`cmpool_init`** formats the pool. -/
theorem cmpoolInit_formatted (h : Sized mbase msize blksz) (hmagic : old.magic ≠ cmpoolMagic) :
    Formatted mbase msize (cmpoolInit old msize blksz) := by
  have hheader := h.header
  have hbase := h.base
  have hfits := h.fits
  have hsub : sub msize headSize = msize - headSize := sub_of_le hheader (by omega)
  have hadd : add blksz nodeSize = blksz + nodeSize := add_of_lt h.entry
  obtain ⟨n, hn⟩ : ∃ n, n = (msize - headSize) / (blksz + nodeSize) := ⟨_, rfl⟩
  have hle : n * (blksz + nodeSize) ≤ msize - headSize := by
    rw [hn]
    exact Nat.div_mul_le_self _ _
  have hsplit : n * (blksz + nodeSize) = n * blksz + n * nodeSize := Nat.mul_add n blksz nodeSize
  have htable : mul n nodeSize = n * nodeSize := mul_of_lt (by omega)
  have hblock : add headSize (n * nodeSize) = headSize + n * nodeSize := add_of_lt (by omega)
  have hinit : cmpoolInit old msize blksz =
      { magic := cmpoolMagic
        blksz := blksz
        latestidx := 0
        blockbase := headSize + n * nodeSize
        blknum := n
        offset := fun i => add (headSize + n * nodeSize) (mul i.toNat blksz)
        state := fun _ => .empty } := by
    rw [cmpoolInit, if_pos hmagic, hsub, hadd, ← hn]
    simp only [htable, hblock]
  rw [hinit]
  refine ⟨h.block, ?_, hbase, hfits, rfl, ?_, fun i hi => ?_⟩
  · rw [hn]
    exact h.indices
  · show headSize + n * nodeSize + n * blksz ≤ msize
    omega
  · -- the block ends before the memory does
    have hlt : i.toNat + 1 ≤ n := by
      have h₀ := hi.1
      have h₁ : i < n := hi.2
      omega
    have hmul := Nat.mul_le_mul_right blksz hlt
    have hsucc : (i.toNat + 1) * blksz = i.toNat * blksz + blksz := Nat.succ_mul _ _
    have hpos := h.block
    show add (headSize + n * nodeSize) (mul i.toNat blksz) = headSize + n * nodeSize + i.toNat * blksz
    rw [mul_of_lt (by omega), add_of_lt (by omega)]

/-- The number of blocks is not negative. -/
theorem Formatted.toInt_blknum (h : Formatted mbase msize head) : toInt head.blknum = head.blknum :=
  toInt_of_le h.indices

/-- The end of block `i`. -/
theorem Formatted.block_end (h : Formatted mbase msize head) (hi : InRange head i) :
    head.blockbase + i.toNat * head.blksz + head.blksz ≤ msize := by
  have hlt : i.toNat + 1 ≤ head.blknum := by
    have h₀ := hi.1
    have h₁ := hi.2
    omega
  have hmul := Nat.mul_le_mul_right head.blksz hlt
  have hsucc : (i.toNat + 1) * head.blksz = i.toNat * head.blksz + head.blksz := Nat.succ_mul _ _
  have hwithin := h.within
  omega

/-- The address of a block. -/
theorem Formatted.getbufaddr_eq (h : Formatted mbase msize head) (hi : InRange head i) :
    getbufaddr mbase head i = mbase + (head.blockbase + i.toNat * head.blksz) := by
  have hend := h.block_end hi
  have hfits := h.fits
  have hpos := h.block
  have hin : 0 ≤ i ∧ i < toInt head.blknum := by
    rw [h.toInt_blknum]
    exact hi
  rw [getbufaddr, if_pos hin, h.offset i hi, add_of_lt (by omega)]

/-- It is not NULL. -/
theorem Formatted.getbufaddr_pos (h : Formatted mbase msize head) (hi : InRange head i) :
    0 < getbufaddr mbase head i := by
  have hbase := h.base
  rw [h.getbufaddr_eq hi]
  omega

/-- The block of an address. -/
theorem Formatted.getbufidx_eq (h : Formatted mbase msize head) (hi : InRange head i) :
    getbufidx mbase head (getbufaddr mbase head i) = i := by
  have hend := h.block_end hi
  have hfits := h.fits
  have hbase := h.base
  have hpos := h.block
  have hindices := h.indices
  obtain ⟨h₀, h₁⟩ := hi
  have hsub : sub (mbase + (head.blockbase + i.toNat * head.blksz)) mbase
      = head.blockbase + i.toNat * head.blksz := by
    rw [sub_of_le (by omega) (by omega), Nat.add_sub_cancel_left]
  have hsub' : sub (head.blockbase + i.toNat * head.blksz) head.blockbase
      = i.toNat * head.blksz := by
    rw [sub_of_le (by omega) (by omega), Nat.add_sub_cancel_left]
  rw [h.getbufaddr_eq ⟨h₀, h₁⟩, getbufidx, hsub, hsub', Nat.mul_div_cancel _ (by omega),
    toInt_of_le (by omega)]
  exact Int.toNat_of_nonneg h₀

/-- Different blocks have different addresses. -/
theorem Formatted.getbufaddr_inj (h : Formatted mbase msize head) (hi : InRange head i)
    (hj : InRange head j) (heq : getbufaddr mbase head i = getbufaddr mbase head j) : i = j := by
  have := congrArg (getbufidx mbase head) heq
  rwa [h.getbufidx_eq hi, h.getbufidx_eq hj] at this

end Layout

/-! ## The invariant -/

section Invariant

/-- The index that a call is about to hand out or to release. -/
def Pc.claimed : Pc → List ℤ
  | .allocStore idx | .freeCas idx => [idx]
  | _ => []

/-- The pointers of the blocks that thread `t` has: the one its call is about, and those
it holds. -/
def has (c : Conf Pool Pc) (t : ℕ) : List ℕ :=
  (c.thread t).claimed.map (getbufaddr c.shared.mbase c.shared.head) ++ c.shared.held t

/-- The index in a program counter is one of the table. -/
def Pc.InTable (head : Head) : Pc → Prop
  | .allocHint idx | .allocScan idx | .allocStore idx | .freeCas idx => InRange head idx
  | _ => True

structure Inv (msize : ℕ) (c : Conf Pool Pc) : Prop where
  formatted : Formatted c.shared.mbase msize c.shared.head
  latest : 0 ≤ c.shared.head.latestidx
  table : ∀ t, (c.thread t).InTable c.shared.head
  exclusive : Exclusive (has c)
  taken_iff : ∀ p, (∃ t, p ∈ has c t) ↔ ∃ i, InRange c.shared.head i
    ∧ p = getbufaddr c.shared.mbase c.shared.head i ∧ c.shared.head.state i = .used

variable {msize t : ℕ} {c c' : Conf Pool Pc} {i : ℤ}

/-- The fields of the header that `cmpool_init` alone writes. -/
structure SameLayout (s s' : Pool) : Prop where
  mbase : s'.mbase = s.mbase
  blksz : s'.head.blksz = s.head.blksz
  blockbase : s'.head.blockbase = s.head.blockbase
  blknum : s'.head.blknum = s.head.blknum
  offset : s'.head.offset = s.head.offset

/-- No change. -/
theorem SameLayout.refl (s : Pool) : SameLayout s s := ⟨rfl, rfl, rfl, rfl, rfl⟩

/-- The state of a block is no layout. -/
theorem SameLayout.setState (s : Pool) (idx : ℤ) (state : NodeState) :
    SameLayout s (s.setState idx state) :=
  ⟨rfl, rfl, rfl, rfl, rfl⟩

/-- The blocks are the same. -/
theorem SameLayout.inRange {s s' : Pool} (h : SameLayout s s') :
    InRange s'.head i ↔ InRange s.head i := by
  rw [InRange, InRange, h.blknum]

/-- So are their addresses. -/
theorem SameLayout.getbufaddr {s s' : Pool} (h : SameLayout s s') :
    getbufaddr s'.mbase s'.head = getbufaddr s.mbase s.head := by
  funext idx
  rw [Cmpool.getbufaddr, Cmpool.getbufaddr, h.mbase, h.blknum, h.offset]

/-- The pool stays formatted. -/
theorem SameLayout.formatted {s s' : Pool} (h : SameLayout s s')
    (hf : Formatted s.mbase msize s.head) : Formatted s'.mbase msize s'.head := by
  refine ⟨?_, ?_, ?_, ?_, ?_, ?_, fun i hi => ?_⟩
  · rw [h.blksz]
    exact hf.block
  · rw [h.blknum]
    exact hf.indices
  · rw [h.mbase]
    exact hf.base
  · rw [h.mbase]
    exact hf.fits
  · rw [h.blockbase, h.blknum]
    exact hf.blockbase
  · rw [h.blockbase, h.blknum, h.blksz]
    exact hf.within
  · rw [h.offset, h.blockbase, h.blksz]
    exact hf.offset i (h.inRange.mp hi)

/-- What a thread looks at stays in the table. -/
theorem SameLayout.inTable {s s' : Pool} (h : SameLayout s s') {pc : Pc}
    (hpc : pc.InTable s.head) : pc.InTable s'.head := by
  cases pc with
  | allocHint idx | allocScan idx | allocStore idx | freeCas idx => exact h.inRange.mpr hpc
  | returned | allocLatest => trivial

/-- So it does for all threads. -/
theorem Inv.table_update (h : Inv msize c) {s' : Pool} {pc' : Pc} (hlay : SameLayout c.shared s')
    (hpc : pc'.InTable c.shared.head) (u : ℕ) :
    (Function.update c.thread t pc' u).InTable s'.head := by
  by_cases hu : u = t
  · rw [hu, Function.update_self]
    exact hlay.inTable hpc
  · rw [Function.update_of_ne hu]
    exact hlay.inTable (h.table u)

/-- What the other threads have stays what it is. -/
theorem has_other {s' : Pool} {pc' : Pc} {u : ℕ} (hlay : SameLayout c.shared s')
    (hheld : s'.held u = c.shared.held u) (hu : u ≠ t) :
    has ⟨s', Function.update c.thread t pc'⟩ u = has c u := by
  simp only [has, Function.update_of_ne hu, hlay.getbufaddr, hheld]

/-- A step that keeps the states, and what every thread has. -/
theorem Inv.stay (h : Inv msize c) {s' : Pool} {pc' : Pc} (hlay : SameLayout c.shared s')
    (hstate : s'.head.state = c.shared.head.state) (hlatest : 0 ≤ s'.head.latestidx)
    (htable : pc'.InTable c.shared.head) (hheld : ∀ u, u ≠ t → s'.held u = c.shared.held u)
    (hhas : (has ⟨s', Function.update c.thread t pc'⟩ t).Perm (has c t)) :
    Inv msize ⟨s', Function.update c.thread t pc'⟩ := by
  have hperm : ∀ u, (has ⟨s', Function.update c.thread t pc'⟩ u).Perm (has c u) := by
    intro u
    by_cases hu : u = t
    · rw [hu]
      exact hhas
    · rw [has_other hlay (hheld u hu) hu]
  refine ⟨hlay.formatted h.formatted, hlatest, h.table_update hlay htable,
    ⟨fun u => ?_, fun u v p hp hp' => ?_⟩, fun p => ?_⟩
  · exact (hperm u).nodup_iff.mpr (h.exclusive.nodup u)
  · exact h.exclusive.unique u v p ((hperm u).mem_iff.mp hp) ((hperm v).mem_iff.mp hp')
  · simp only [(hperm _).mem_iff, hlay.inRange, hlay.getbufaddr, hstate]
    exact h.taken_iff p

/-- A compare-and-swap of `regbufidx` takes a block that nobody has. -/
theorem Inv.acquire (h : Inv msize c) (hi : InRange c.shared.head i)
    (hempty : c.shared.head.state i = .empty) (hpc : (c.thread t).claimed = []) :
    Inv msize ⟨c.shared.setState i .used, Function.update c.thread t (.allocStore i)⟩ := by
  have hlay := SameLayout.setState c.shared i .used
  have hf := h.formatted
  have hself : has ⟨c.shared.setState i .used, Function.update c.thread t (.allocStore i)⟩ t
      = [getbufaddr c.shared.mbase c.shared.head i] ++ has c t := by
    simp only [has, Function.update_self, hpc, hlay.getbufaddr]
    rfl
  have hfree : ∀ u, getbufaddr c.shared.mbase c.shared.head i ∉ has c u := by
    intro u hmem
    obtain ⟨j, hj, heq, hused⟩ := (h.taken_iff _).mp ⟨u, hmem⟩
    rw [← hf.getbufaddr_inj hi hj heq, hempty] at hused
    cases hused
  obtain ⟨hexcl, hmem⟩ := h.exclusive.add
    (has ⟨c.shared.setState i .used, Function.update c.thread t (.allocStore i)⟩)
    [getbufaddr c.shared.mbase c.shared.head i] (List.nodup_singleton _)
    (fun p hp u => by rw [List.mem_singleton.mp hp]; exact hfree u)
    (List.Perm.of_eq hself) (fun u hu => has_other hlay rfl hu)
  refine ⟨hlay.formatted hf, h.latest, h.table_update hlay hi, hexcl, fun p => ?_⟩
  · rw [hmem, h.taken_iff, List.mem_singleton]
    simp only [hlay.inRange, hlay.getbufaddr]
    constructor
    · rintro (rfl | ⟨j, hj, rfl, hused⟩)
      · exact ⟨i, hi, rfl, Function.update_self _ _ _⟩
      · refine ⟨j, hj, rfl, ?_⟩
        by_cases hji : j = i
        · rw [hji]
          exact Function.update_self _ _ _
        · exact (Function.update_of_ne hji _ _).trans hused
    · rintro ⟨j, hj, rfl, hused⟩
      by_cases hji : j = i
      · exact .inl (by rw [hji])
      · exact .inr ⟨j, hj, rfl, (Function.update_of_ne hji _ _).symm.trans hused⟩

/-- The compare-and-swap of `unregbufidx` releases the block of its thread. -/
theorem Inv.release (h : Inv msize c) (hpc : c.thread t = .freeCas i) :
    c.shared.head.state i = .used
      ∧ Inv msize ⟨c.shared.setState i .empty, Function.update c.thread t (.returned .free)⟩ := by
  have hlay := SameLayout.setState c.shared i .empty
  have hf := h.formatted
  have hi : InRange c.shared.head i := by
    have := h.table t
    rw [hpc] at this
    exact this
  have hself : has c t = getbufaddr c.shared.mbase c.shared.head i
      :: has ⟨c.shared.setState i .empty, Function.update c.thread t (.returned .free)⟩ t := by
    simp only [has, hpc, Function.update_self]
    rfl
  obtain ⟨hexcl, hmem⟩ := h.exclusive.leave
    (has ⟨c.shared.setState i .empty, Function.update c.thread t (.returned .free)⟩)
    (List.Perm.of_eq hself) (fun u hu => has_other hlay rfl hu)
  have hhead : getbufaddr c.shared.mbase c.shared.head i ∈ has c t := by
    rw [hself]
    exact List.mem_cons_self
  refine ⟨?_, hlay.formatted hf, h.latest, h.table_update hlay trivial, hexcl, fun p => ?_⟩
  · obtain ⟨j, hj, heq, hused⟩ := (h.taken_iff _).mp ⟨t, hhead⟩
    rw [hf.getbufaddr_inj hi hj heq]
    exact hused
  · -- the released pointer is nowhere else
    have hgone : ∀ u, getbufaddr c.shared.mbase c.shared.head i
        ∉ has ⟨c.shared.setState i .empty, Function.update c.thread t (.returned .free)⟩ u := by
      intro u hu
      by_cases hut : u = t
      · subst hut
        have hnd := h.exclusive.nodup u
        rw [hself] at hnd
        exact (List.nodup_cons.mp hnd).1 hu
      · rw [has_other hlay rfl hut] at hu
        exact hut (h.exclusive.unique u t _ hu hhead)
    have hold := (h.taken_iff p).symm.trans (hmem p)
    simp only [hlay.inRange, hlay.getbufaddr]
    constructor
    · intro hex
      obtain ⟨j, hj, rfl, hused⟩ := hold.mpr (.inr hex)
      have hji : j ≠ i := by
        rintro rfl
        obtain ⟨u, hu⟩ := hex
        exact hgone u hu
      exact ⟨j, hj, rfl, (Function.update_of_ne hji _ _).trans hused⟩
    · rintro ⟨j, hj, rfl, hused⟩
      have hji : j ≠ i := by
        rintro rfl
        have hempty : (c.shared.setState j .empty).head.state j = .empty :=
          Function.update_self _ _ _
        rw [hempty] at hused
        cases hused
      have hused : c.shared.head.state j = .used :=
        (Function.update_of_ne hji _ _).symm.trans hused
      refine (hold.mp ⟨j, hj, rfl, hused⟩).resolve_left fun heq => hji ?_
      exact hf.getbufaddr_inj hj hi heq

/-- The next round of the loop of `regbufidx`. -/
theorem scanFrom_inTable {s : Pool} (hf : Formatted s.mbase msize s.head) (hi : 0 ≤ i) :
    (scanFrom s i).InTable s.head := by
  by_cases hlt : i < toInt s.head.blknum
  · rw [scanFrom, if_pos hlt]
    rw [hf.toInt_blknum] at hlt
    exact ⟨hi, hlt⟩
  · rw [scanFrom, if_neg hlt]
    trivial

/-- A thread that looks for a block has none. -/
theorem scanFrom_claimed (s : Pool) (i : ℤ) : (scanFrom s i).claimed = [] := by
  by_cases hlt : i < toInt s.head.blknum
  · rw [scanFrom, if_pos hlt]
    rfl
  · rw [scanFrom, if_neg hlt]
    rfl

/-- A step that only moves a program counter that claims nothing. -/
theorem Inv.move (h : Inv msize c) {pc' : Pc} (htable : pc'.InTable c.shared.head)
    (hpc : (c.thread t).claimed = []) (hpc' : pc'.claimed = []) :
    Inv msize ⟨c.shared, Function.update c.thread t pc'⟩ := by
  have heq : has ⟨c.shared, Function.update c.thread t pc'⟩ t = has c t := by
    simp only [has, Function.update_self, hpc, hpc']
  exact h.stay (SameLayout.refl c.shared) rfl h.latest htable (fun _ _ => rfl)
    (List.Perm.of_eq heq)

/-- `regbufidx` goes to the next round of its loop. -/
theorem Inv.scan (h : Inv msize c) (hi : 0 ≤ i) (hpc : (c.thread t).claimed = []) :
    Inv msize ⟨c.shared, Function.update c.thread t (scanFrom c.shared i)⟩ := by
  have htable : (scanFrom c.shared i).InTable c.shared.head := scanFrom_inTable h.formatted hi
  have hclaimed : (scanFrom c.shared i).claimed = [] := scanFrom_claimed c.shared i
  exact h.move htable hpc hclaimed

/-- A pointer that is held is the address of a block in use. -/
theorem Inv.of_held (h : Inv msize c) {p : ℕ} (hp : p ∈ c.shared.held t) :
    ∃ i, InRange c.shared.head i ∧ p = getbufaddr c.shared.mbase c.shared.head i
      ∧ c.shared.head.state i = .used :=
  (h.taken_iff p).mp ⟨t, List.mem_append_right _ hp⟩

/-- Every step keeps the invariant. -/
theorem Inv.step {e : ℕ × Cmd} (h : Inv msize c) (hstep : sys c e = some c') : Inv msize c' := by
  obtain ⟨k', hprog, hthr⟩ := interleave_eq_some.mp hstep
  obtain ⟨s', thread'⟩ := c'
  obtain ⟨t, cmd⟩ := e
  obtain rfl : thread' = Function.update c.thread t k' := hthr
  simp only at hprog
  have hf := h.formatted
  have htable := h.table t
  cases hpc : c.thread t with
  | returned r =>
    rw [hpc] at hprog
    have hclaim : (c.thread t).claimed = [] := by rw [hpc]; rfl
    cases cmd with
    | resume => cases hprog
    | alloc =>
      cases hprog
      exact h.move trivial hclaim rfl
    | free ptr =>
      simp only [Cmpool.step, Option.ite_none_right_eq_some] at hprog
      obtain ⟨hptr, heq⟩ := hprog
      cases heq
      obtain ⟨i, hi, rfl, -⟩ := h.of_held hptr
      have hidx := hf.getbufidx_eq hi
      have hlay : SameLayout c.shared
          (c.shared.give t (getbufaddr c.shared.mbase c.shared.head i)) := ⟨rfl, rfl, rfl, rfl, rfl⟩
      refine h.stay hlay rfl h.latest ?_ (fun u hu => Function.update_of_ne hu _ _) ?_
      · rw [hidx]
        exact hi
      · simp only [has, Function.update_self, hclaim, hidx, Pool.give]
        exact (List.perm_cons_erase hptr).symm
  | allocLatest =>
    rw [hpc] at hprog
    have hclaim : (c.thread t).claimed = [] := by rw [hpc]; rfl
    cases cmd <;> simp only [Cmpool.step, reduceCtorEq] at hprog
    split at hprog <;> cases hprog
    · rename_i hlt
      rw [hf.toInt_blknum] at hlt
      have hlatest := h.latest
      exact h.move ⟨by omega, hlt⟩ hclaim rfl
    · exact h.scan le_rfl hclaim
  | allocHint idx =>
    rw [hpc] at hprog htable
    have hclaim : (c.thread t).claimed = [] := by rw [hpc]; rfl
    cases cmd <;> simp only [Cmpool.step, reduceCtorEq] at hprog
    split at hprog <;> cases hprog
    · rename_i hempty
      exact h.acquire htable hempty hclaim
    · exact h.scan le_rfl hclaim
  | allocScan idx =>
    rw [hpc] at hprog htable
    have hclaim : (c.thread t).claimed = [] := by rw [hpc]; rfl
    cases cmd <;> simp only [Cmpool.step, reduceCtorEq] at hprog
    split at hprog <;> cases hprog
    · rename_i hempty
      exact h.acquire htable hempty hclaim
    · have hidx := htable.1
      exact h.scan (by omega) hclaim
  | allocStore idx =>
    rw [hpc] at hprog htable
    cases cmd <;> cases hprog
    have hpos := hf.getbufaddr_pos htable
    have htake : (c.shared.setLatest idx).take t (getbufaddr c.shared.mbase c.shared.head idx)
        = { c.shared.setLatest idx with
            held := Function.update c.shared.held t
              (getbufaddr c.shared.mbase c.shared.head idx :: c.shared.held t) } :=
      if_neg (by omega)
    rw [htake]
    have hlay : SameLayout c.shared { c.shared.setLatest idx with
        held := Function.update c.shared.held t
          (getbufaddr c.shared.mbase c.shared.head idx :: c.shared.held t) } :=
      ⟨rfl, rfl, rfl, rfl, rfl⟩
    refine h.stay hlay rfl htable.1 trivial (fun u hu => Function.update_of_ne hu _ _)
      (List.Perm.of_eq ?_)
    simp only [has, Function.update_self, hpc, Pc.claimed, List.map_nil, List.nil_append,
      List.map_cons, List.cons_append]
  | freeCas idx =>
    obtain ⟨hused, hrel⟩ := h.release hpc
    rw [hpc] at hprog htable
    have hin : 0 ≤ idx ∧ idx < toInt c.shared.head.blknum := by
      rw [hf.toInt_blknum]
      exact htable
    cases cmd <;> simp only [Cmpool.step, reduceCtorEq, if_pos hin, if_pos hused] at hprog
    cases hprog
    exact hrel

/-- The invariant holds at the start. -/
theorem init_inv {mbase msize blksz : ℕ} {old : Head} (hf : Sized mbase msize blksz)
    (hmagic : old.magic ≠ cmpoolMagic) : Inv msize (init mbase old msize blksz) := by
  have hhas : has (init mbase old msize blksz) = fun _ => [] := rfl
  have hlatest : (cmpoolInit old msize blksz).latestidx = 0 := by
    rw [cmpoolInit, if_pos hmagic]
  have hstate : ∀ i, (cmpoolInit old msize blksz).state i = .empty := fun i => by
    rw [cmpoolInit, if_pos hmagic]
  refine ⟨cmpoolInit_formatted hf hmagic, hlatest.ge, fun _ => trivial, ?_, fun p => ?_⟩
  · rw [hhas]
    exact exclusive_nil
  · rw [hhas]
    constructor
    · rintro ⟨t, hp⟩
      exact absurd hp List.not_mem_nil
    · rintro ⟨i, -, -, hused⟩
      have hempty : (init mbase old msize blksz).shared.head.state i = .empty := hstate i
      rw [hempty] at hused
      cases hused

/-- What the invariant says about the blocks. -/
theorem Inv.owned (h : Inv msize c) : Owned c := by
  have hheld : ∀ {t p}, p ∈ c.shared.held t → p ∈ has c t := fun hp => List.mem_append_right _ hp
  refine ⟨fun t u p hp hp' => h.exclusive.unique t u p (hheld hp) (hheld hp'), fun t => ?_,
    fun t p hp => h.of_held hp, fun i hi hno hidle => ?_⟩
  · exact (List.nodup_append.mp (h.exclusive.nodup t)).2.1
  · by_contra hne
    have hused : c.shared.head.state i = .used := by
      cases hst : c.shared.head.state i with
      | empty => exact absurd hst hne
      | used => rfl
    obtain ⟨t, ht⟩ := (h.taken_iff _).mpr ⟨i, hi, rfl, hused⟩
    rcases List.mem_append.mp ht with ht | ht
    · -- the block that a call is about
      obtain ⟨j, hj, heq⟩ := List.mem_map.mp ht
      have htable := h.table t
      apply hidle t
      cases hpc : c.thread t with
      | allocStore idx =>
        rw [hpc] at hj htable
        obtain rfl := List.mem_singleton.mp hj
        exact .inl (by rw [h.formatted.getbufaddr_inj htable hi heq])
      | freeCas idx =>
        rw [hpc] at hj htable
        obtain rfl := List.mem_singleton.mp hj
        exact .inr (by rw [h.formatted.getbufaddr_inj htable hi heq])
      | returned | allocLatest | allocHint | allocScan =>
        rw [hpc] at hj
        exact absurd hj List.not_mem_nil
    · exact hno t ht

end Invariant

/-! ## A call without interference -/

section Solo

variable {msize t : ℕ} {c c' : Conf Pool Pc} {s₀ s : Pool} {i : ℤ}

/-- What an undisturbed `cmpool_alloc`, begun in the state `s₀`, knows where it stands. -/
def Pc.Knows (s₀ s : Pool) : Pc → Prop
  | .allocLatest | .allocHint _ => s = s₀
  | .allocScan idx => s = s₀ ∧ ∀ j, 0 ≤ j → j < idx → s.head.state j = .used
  | .returned r => r = .alloc 0 → s = s₀ ∧ ∀ j, InRange s.head j → s.head.state j = .used
  | .allocStore _ | .freeCas _ => True

/-- No block is NULL. -/
theorem getbufaddr_neg_one (mbase : ℕ) (head : Head) : getbufaddr mbase head (-1) = 0 :=
  if_neg fun h => absurd h.1 (by decide)

/-- Behind the end of the loop every block has been seen in use. -/
theorem scanFrom_knows (hf : Formatted s.mbase msize s.head) (hs : s = s₀)
    (hseen : ∀ j, 0 ≤ j → j < i → s.head.state j = .used) : (scanFrom s i).Knows s₀ s := by
  by_cases hlt : i < toInt s.head.blknum
  · rw [scanFrom, if_pos hlt]
    exact ⟨hs, hseen⟩
  · rw [scanFrom, if_neg hlt, getbufaddr_neg_one]
    rw [hf.toInt_blknum] at hlt
    intro _
    refine ⟨hs, fun j hj => hseen j hj.1 ?_⟩
    exact lt_of_lt_of_le hj.2 (not_lt.mp hlt)

/-- A step of the call itself. -/
theorem Pc.Knows.step (h : Inv msize c) (hknows : (c.thread t).Knows s₀ c.shared)
    (hstep : sys c (t, .resume) = some c') : (c'.thread t).Knows s₀ c'.shared := by
  obtain ⟨k', hprog, hthr⟩ := interleave_eq_some.mp hstep
  simp only at hprog
  have hf := h.formatted
  have hself : c'.thread t = k' := by
    rw [hthr]
    exact Function.update_self _ _ _
  rw [hself]
  have htable := h.table t
  cases hpc : c.thread t with
  | returned r =>
    rw [hpc] at hprog
    cases hprog
  | allocLatest =>
    rw [hpc] at hprog hknows
    simp only [Cmpool.step] at hprog
    split at hprog <;> obtain ⟨hs, rfl⟩ := Prod.mk.inj (Option.some.inj hprog) <;> rw [← hs]
    · exact hknows
    · exact scanFrom_knows hf hknows (fun j h₀ h₁ => absurd h₁ (by omega))
  | allocHint idx =>
    rw [hpc] at hprog hknows
    simp only [Cmpool.step] at hprog
    split at hprog <;> obtain ⟨hs, rfl⟩ := Prod.mk.inj (Option.some.inj hprog)
    · trivial
    · rw [← hs]
      exact scanFrom_knows hf hknows (fun j h₀ h₁ => absurd h₁ (by omega))
  | allocScan idx =>
    rw [hpc] at hprog hknows
    obtain ⟨hs₀, hseen⟩ := hknows
    simp only [Cmpool.step] at hprog
    split at hprog <;> obtain ⟨hs, rfl⟩ := Prod.mk.inj (Option.some.inj hprog)
    · trivial
    · rename_i hne
      rw [← hs]
      refine scanFrom_knows hf hs₀ fun j h₀ h₁ => ?_
      rcases (Int.lt_add_one_iff.mp h₁).lt_or_eq with hlt | rfl
      · exact hseen j h₀ hlt
      · cases hst : c.shared.head.state j with
        | empty => exact absurd hst hne
        | used => rfl
  | allocStore idx =>
    rw [hpc] at hprog htable
    obtain ⟨-, rfl⟩ := Prod.mk.inj (Option.some.inj hprog)
    intro hnull
    have hpos := hf.getbufaddr_pos htable
    have hzero : getbufaddr c.shared.mbase c.shared.head idx = 0 := Ret.alloc.inj hnull
    omega
  | freeCas idx =>
    rw [hpc] at hprog
    simp only [Cmpool.step] at hprog
    split at hprog
    · split at hprog <;> obtain ⟨-, rfl⟩ := Prod.mk.inj (Option.some.inj hprog) <;> intro hr <;>
        cases hr
    · obtain ⟨-, rfl⟩ := Prod.mk.inj (Option.some.inj hprog)
      intro hr
      cases hr

/-- A pool that was seen full. -/
theorem Pc.Knows.run {n : ℕ} (h : Inv msize c) (hknows : (c.thread t).Knows s₀ c.shared)
    (hrun : Interleaving.run sys c (List.replicate n (t, .resume)) = some c') :
    (c'.thread t).Knows s₀ c'.shared := by
  induction n generalizing c with
  | zero =>
    obtain rfl := Option.some.inj hrun
    exact hknows
  | succ n ih =>
    rw [List.replicate_succ, run_cons_eq_some] at hrun
    obtain ⟨c₁, hstep, hrest⟩ := hrun
    exact ih (h.step hstep) (hknows.step h hstep) hrest

end Solo

/-! ## The pool -/

/-- Memory before `cmpool_init`. -/
def blank : Head :=
  { magic := 0, blksz := 0, latestidx := 0, blockbase := 0, blknum := 0,
    offset := fun _ => 0, state := fun _ => .empty }

end Cmpool
