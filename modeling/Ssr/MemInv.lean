/-
# The invariant of the allocator

* `Region.Aligned`, `Region.Apart` — where regions lie, and what that says about their blocks;
* `Heap.Inv` — the blocks of the regions are in places, the free lists are chains, and so are
  the queues behind their first block;
* `Loc` — what a thread knows: it alone takes from its free lists and from the front of its
  incoming queues, and it alone puts at the back of its outgoing ones;
* `Rely`, `Loc.stable` — what the steps of other threads leave alone, and that a thread goes
  on to know what it knew.
-/
import Ssr.Mem

open Interleaving Placement Chain

namespace Mem

/-! ## Regions -/

section Regions

variable {r r' : Region} {x y : ℕ}

/-- The region lies where `get_new_region` puts it. -/
structure Region.Aligned (r : Region) : Prop where
  base : r.base % regionSize r.scale = 0
  pos : 0 < r.base

/-- The regions do not overlap. -/
def Region.Apart (r r' : Region) : Prop :=
  r.base + regionSize r.scale ≤ r'.base ∨ r'.base + regionSize r'.scale ≤ r.base

/-- A region is so many blocks. -/
theorem regionSize_eq (s : ℕ) : regionSize s = 2 ^ (pageScale - s) * 2 ^ s := by
  unfold regionSize pageSize
  rw [← pow_add]
  rcases le_total s pageScale with h | h
  · rw [Nat.sub_add_cancel h, max_eq_right (Nat.pow_le_pow_right Nat.two_pos h)]
  · rw [Nat.sub_eq_zero_of_le h, zero_add, max_eq_left (Nat.pow_le_pow_right Nat.two_pos h)]

/-- A region is a page at least. -/
theorem pageSize_le (s : ℕ) : pageSize ≤ regionSize s := le_max_right _ _

/-- It is a number of pages. -/
theorem pageSize_dvd (s : ℕ) : pageSize ∣ regionSize s := by
  unfold regionSize pageSize
  rcases le_total (2 ^ s) (2 ^ pageScale) with h | h
  · rw [max_eq_right h]
  · rw [max_eq_left h]
    exact Nat.pow_dvd_pow 2 ((Nat.pow_le_pow_iff_right one_lt_two).mp h)

/-- The blocks of a region, one behind the other. -/
theorem blocks_eq (r : Region) : r.blocks
    = (List.range (2 ^ (pageScale - r.scale))).map fun i => r.base + i * 2 ^ r.scale := by
  unfold Region.blocks
  split_ifs with h
  · rfl
  · rw [Nat.sub_eq_zero_of_le (not_lt.mp h)]
    simp

/-- A block of a region. -/
theorem mem_blocks : x ∈ r.blocks
    ↔ ∃ i, i < 2 ^ (pageScale - r.scale) ∧ x = r.base + i * 2 ^ r.scale := by
  rw [blocks_eq]
  simp only [List.mem_map, List.mem_range]
  constructor
  · rintro ⟨i, hi, rfl⟩
    exact ⟨i, hi, rfl⟩
  · rintro ⟨i, hi, rfl⟩
    exact ⟨i, hi, rfl⟩

/-- Its blocks but the first. -/
theorem blocks_tail (r : Region) : r.blocks.tail
    = (List.range' 1 (2 ^ (pageScale - r.scale) - 1)).map fun i => r.base + i * 2 ^ r.scale := by
  obtain ⟨n, hn⟩ : ∃ n, 2 ^ (pageScale - r.scale) = n + 1 :=
    ⟨2 ^ (pageScale - r.scale) - 1, (Nat.succ_pred_eq_of_pos (Nat.two_pow_pos _)).symm⟩
  rw [blocks_eq, hn, List.range_eq_range', List.range'_succ]
  rfl

/-- Its first block and the others. -/
theorem blocks_cons (r : Region) : r.blocks = r.base :: r.blocks.tail := by
  have hpos : 0 < 2 ^ (pageScale - r.scale) := Nat.two_pow_pos _
  have hhead : r.blocks.head? = some r.base := by
    rw [blocks_eq, List.head?_map, List.head?_range, if_neg hpos.ne']
    simp
  exact (List.cons_head?_tail hhead).symm

/-- A block lies in its region. -/
theorem block_within (hx : x ∈ r.blocks) :
    r.base ≤ x ∧ x + 2 ^ r.scale ≤ r.base + regionSize r.scale := by
  obtain ⟨i, hi, rfl⟩ := mem_blocks.mp hx
  have hle : (i + 1) * 2 ^ r.scale ≤ 2 ^ (pageScale - r.scale) * 2 ^ r.scale :=
    Nat.mul_le_mul_right _ hi
  rw [Nat.add_one_mul] at hle
  rw [regionSize_eq]
  exact ⟨Nat.le_add_right _ _, by omega⟩

/-- Two blocks of one region do not overlap. -/
theorem blocks_apart (hx : x ∈ r.blocks) (hy : y ∈ r.blocks) (hne : x ≠ y) :
    x + 2 ^ r.scale ≤ y ∨ y + 2 ^ r.scale ≤ x := by
  obtain ⟨i, -, rfl⟩ := mem_blocks.mp hx
  obtain ⟨j, -, rfl⟩ := mem_blocks.mp hy
  have hij : i ≠ j := fun h => hne (by rw [h])
  rcases lt_or_gt_of_ne hij with h | h
  · have hle : (i + 1) * 2 ^ r.scale ≤ j * 2 ^ r.scale := Nat.mul_le_mul_right _ h
    rw [Nat.add_one_mul] at hle
    exact Or.inl (by omega)
  · have hle : (j + 1) * 2 ^ r.scale ≤ i * 2 ^ r.scale := Nat.mul_le_mul_right _ h
    rw [Nat.add_one_mul] at hle
    exact Or.inr (by omega)

/-- No block comes twice. -/
theorem nodup_blocks (r : Region) : r.blocks.Nodup := by
  rw [blocks_eq]
  refine List.Nodup.map ?_ List.nodup_range
  intro i j h
  have hmul : i * 2 ^ r.scale = j * 2 ^ r.scale := Nat.add_left_cancel h
  exact Nat.eq_of_mul_eq_mul_right (Nat.two_pow_pos _) hmul

/-- The header that `get_header` finds for a block is that of its region. -/
theorem Region.Aligned.page_eq (hr : r.Aligned) (hx : x ∈ r.blocks) : page x = page r.base := by
  obtain ⟨i, hi, rfl⟩ := mem_blocks.mp hx
  rcases lt_or_ge r.scale pageScale with hs | hs
  · have hlt : i * 2 ^ r.scale < pageSize := by
      have hmul := Nat.mul_lt_mul_of_pos_right hi (Nat.two_pow_pos r.scale)
      rwa [← pow_add, Nat.sub_add_cancel hs.le] at hmul
    obtain ⟨k, hk⟩ : pageSize ∣ r.base :=
      (pageSize_dvd r.scale).trans (Nat.dvd_of_mod_eq_zero hr.base)
    have hpos : 0 < pageSize := Nat.two_pow_pos _
    unfold page
    rw [hk, Nat.mul_add_div hpos, Nat.div_eq_of_lt hlt, Nat.mul_div_cancel_left k hpos, add_zero]
  · have hi0 : i = 0 := by
      rw [Nat.sub_eq_zero_of_le hs] at hi
      simpa using hi
    rw [hi0, Nat.zero_mul, Nat.add_zero]

/-- The first pages of two regions differ. -/
theorem Region.Apart.page_ne (h : r.Apart r') (hr : r.Aligned) (hr' : r'.Aligned) :
    page r.base ≠ page r'.base := by
  intro heq
  obtain ⟨k, hk⟩ : pageSize ∣ r.base :=
    (pageSize_dvd r.scale).trans (Nat.dvd_of_mod_eq_zero hr.base)
  obtain ⟨k', hk'⟩ : pageSize ∣ r'.base :=
    (pageSize_dvd r'.scale).trans (Nat.dvd_of_mod_eq_zero hr'.base)
  have hpos : 0 < pageSize := Nat.two_pow_pos _
  have hsize := pageSize_le r.scale
  have hsize' := pageSize_le r'.scale
  unfold page at heq
  rw [hk, hk', Nat.mul_div_cancel_left k hpos, Nat.mul_div_cancel_left k' hpos] at heq
  unfold Region.Apart at h
  rw [hk, hk', heq] at h
  omega

/-- Blocks of two regions do not overlap. -/
theorem Region.Apart.blocks (h : r.Apart r') (hx : x ∈ r.blocks) (hy : y ∈ r'.blocks) :
    x + 2 ^ r.scale ≤ y ∨ y + 2 ^ r'.scale ≤ x := by
  have h₁ := block_within hx
  have h₂ := block_within hy
  unfold Region.Apart at h
  omega

end Regions

/-! ## The invariant -/

/-- What holds between the steps. -/
structure Heap.Inv (h : Heap) : Prop where
  exclusive : Exclusive h.blocks
  carved : ∀ x, (∃ p, x ∈ h.blocks p) ↔ ∃ r ∈ h.carved, x ∈ r.blocks
  used : ∀ r ∈ h.carved, r ∈ h.regions
  aligned : ∀ r ∈ h.regions, r.Aligned
  apart : ∀ r ∈ h.regions, ∀ r' ∈ h.regions, r ≠ r' → r.Apart r'
  header : ∀ r ∈ h.carved, h.header (page r.base) = ⟨r.owner, r.scale⟩
  free : ∀ o s, Spells h.next (h.freeList o s) (h.blocks (.free o s))
  freeHome : ∀ o s, ∀ x ∈ h.blocks (.free o s), h.header (page x) = ⟨o, s⟩
  queue : ∀ o p, Spells h.next (h.blocks (.queue o p)).tail.head? (h.blocks (.queue o p)).tail
  queueHome : ∀ o p, ∀ x ∈ h.blocks (.queue o p), (h.header (page x)).owner = o ∧ o ≠ p

namespace Heap.Inv

variable {h : Heap} {x y : ℕ} {p q : Place}

/-- The header of a block. -/
theorem home (hi : h.Inv) (hx : x ∈ h.blocks p) :
    ∃ r ∈ h.carved, x ∈ r.blocks ∧ h.header (page x) = ⟨r.owner, r.scale⟩ := by
  obtain ⟨r, hr, hxr⟩ := (hi.carved x).mp ⟨p, hx⟩
  refine ⟨r, hr, hxr, ?_⟩
  rw [(hi.aligned r (hi.used r hr)).page_eq hxr]
  exact hi.header r hr

/-- Two blocks do not overlap. -/
theorem blocks_apart (hi : h.Inv) (hx : x ∈ h.blocks p) (hy : y ∈ h.blocks q) (hne : x ≠ y) :
    x + 2 ^ (h.header (page x)).scale ≤ y ∨ y + 2 ^ (h.header (page y)).scale ≤ x := by
  obtain ⟨r, hr, hxr, hrx⟩ := hi.home hx
  obtain ⟨r', hr', hyr, hry⟩ := hi.home hy
  rw [hrx, hry]
  by_cases heq : r = r'
  · subst heq
    exact Mem.blocks_apart hxr hyr hne
  · exact (hi.apart r (hi.used r hr) r' (hi.used r' hr') heq).blocks hxr hyr

/-- The extent of a block holds no other block. -/
theorem notWithin (hi : h.Inv) (hx : x ∈ h.blocks p) (hy : y ∈ h.blocks q) (hne : x ≠ y) :
    ¬ (x ≤ y ∧ y < x + 2 ^ (h.header (page x)).scale) := by
  have hpos : 0 < 2 ^ (h.header (page y)).scale := Nat.two_pow_pos _
  have := hi.blocks_apart hx hy hne
  omega

end Heap.Inv

/-- Where the last block of a queue says that `blocks_to` points. -/
def tailOf (xs : List ℕ) : Tail :=
  match xs.getLast? with
  | none => .cell
  | some b => .block b

/-- The queue that a call of `nbd_free` put its block on, when `blocks_to` does not say so
yet. -/
def Pc.linking : Pc → Option ℕ
  | .freeTo _ owner => some owner
  | _ => none

/-- What a thread knows where it stands. -/
def Pc.Knows (t : ℕ) (h : Heap) : Pc → Prop
  | .freeTrap x scale | .freeOwner x scale => (h.header (page x)).scale = scale
  | .freeHead x scale => h.header (page x) = ⟨t, scale⟩
  | .freeNext x scale old => h.header (page x) = ⟨t, scale⟩ ∧ h.freeList t scale = old
  | .freePush x scale => h.header (page x) = ⟨t, scale⟩ ∧ h.next x = h.freeList t scale
  | .freeOther x => (h.header (page x)).owner ≠ t
  | .freeNull x owner => (h.header (page x)).owner = owner ∧ owner ≠ t
  | .freeTail x owner => (h.header (page x)).owner = owner ∧ owner ≠ t ∧ h.next x = none
  | .freeLink x owner tail => (h.header (page x)).owner = owner ∧ owner ≠ t ∧ h.next x = none
      ∧ h.blocksTo t owner = tail
  | .freeTo x owner => owner ≠ t ∧ (h.blocks (.queue owner t)).getLast? = some x
  | .popNext n b => h.freeList t (blockScale n) = some b
  | .popStore n b next => h.freeList t (blockScale n) = some b ∧ h.next b = next
  | .inNext _ p b | .inDone _ p b => (h.blocks (.queue t p)).head? = some b
  | .inScale _ p b c => ∃ rest, h.blocks (.queue t p) = b :: c :: rest
  | .inLoad _ p b c scale => (∃ rest, h.blocks (.queue t p) = b :: c :: rest)
      ∧ (h.header (page b)).scale = scale
  | .inStore _ p b c scale old => (∃ rest, h.blocks (.queue t p) = b :: c :: rest)
      ∧ (h.header (page b)).scale = scale ∧ h.freeList t scale = old
  | .inPush _ p b c scale => (∃ rest, h.blocks (.queue t p) = b :: c :: rest)
      ∧ (h.header (page b)).scale = scale ∧ h.next b = h.freeList t scale
  | .mmap n | .remap n => h.freeList t (blockScale n) = none
  | .header n base => h.freeList t (blockScale n) = none
      ∧ (⟨base, blockScale n, t⟩ : Region) ∈ h.regions
      ∧ (⟨base, blockScale n, t⟩ : Region) ∉ h.carved
  | .carve n base => h.freeList t (blockScale n) = none
      ∧ (⟨base, blockScale n, t⟩ : Region) ∈ h.regions
      ∧ (⟨base, blockScale n, t⟩ : Region) ∉ h.carved
      ∧ h.header (page base) = ⟨t, blockScale n⟩
  | _ => True

/-- The local invariant of thread `t`. -/
structure Loc (t : ℕ) (h : Heap) (pc : Pc) : Prop where
  cell : ∀ p, pc.cursor.map (·.1) ≠ some p →
    h.blocksFrom t p = (h.blocks (.queue t p)).head?
  first : ∀ p, pc.unhooked.map (·.1) ≠ some p → ∀ b rest, h.blocks (.queue t p) = b :: rest →
    h.next b = rest.head?
  tail : ∀ o, pc.linking ≠ some o → h.blocksTo t o = tailOf (h.blocks (.queue o t))
  freeing : h.blocks (.freeing t) = pc.frees.toList
  knows : pc.Knows t h

/-! ## What the steps of other threads leave alone -/

/-- A block came to the back of a queue. -/
structure Arrival (h h' : Heap) (o p x : ℕ) : Prop where
  blocks : h'.blocks (.queue o p) = h.blocks (.queue o p) ++ [x]
  cell : h'.blocksFrom o p = if h.blocks (.queue o p) = [] then some x else h.blocksFrom o p
  new : h'.next x = none
  last : ∀ l ∈ (h.blocks (.queue o p)).getLast?, h'.next l = some x
  keep : ∀ y ∈ h.blocks (.queue o p), (h.blocks (.queue o p)).getLast? ≠ some y →
    h'.next y = h.next y

/-- Nothing happened to a queue. -/
structure Quiet (h h' : Heap) (o p : ℕ) : Prop where
  blocks : h'.blocks (.queue o p) = h.blocks (.queue o p)
  cell : h'.blocksFrom o p = h.blocksFrom o p
  next : ∀ y ∈ h.blocks (.queue o p), h'.next y = h.next y

/-- What thread `t` relies on. -/
structure Rely (t : ℕ) (h h' : Heap) : Prop where
  freeList : ∀ s, h'.freeList t s = h.freeList t s
  free : ∀ s, h'.blocks (.free t s) = h.blocks (.free t s)
  freeing : h'.blocks (.freeing t) = h.blocks (.freeing t)
  next : ∀ x, (∃ s, x ∈ h.blocks (.free t s)) ∨ x ∈ h.blocks (.freeing t) → h'.next x = h.next x
  blocksTo : ∀ o, h'.blocksTo t o = h.blocksTo t o
  incoming : ∀ p, Quiet h h' t p ∨ ∃ x, Arrival h h' t p x
  outgoing : ∀ o, h'.blocks (.queue o t) = h.blocks (.queue o t)
    ∨ ∃ b c rest, h.blocks (.queue o t) = b :: c :: rest ∧ h'.blocks (.queue o t) = c :: rest
  regions : ∀ r ∈ h.regions, r ∈ h'.regions
  uncarved : ∀ r, r.owner = t → r ∉ h.carved → r ∉ h'.carved
  header : ∀ r ∈ h.regions, r ∈ h.carved ∨ r.owner = t →
    h'.header (page r.base) = h.header (page r.base)

/-- No step is no matter to anybody. -/
theorem Rely.refl (t : ℕ) (h : Heap) : Rely t h h :=
  ⟨fun _ => rfl, fun _ => rfl, rfl, fun _ _ => rfl, fun _ => rfl,
    fun _ => Or.inl ⟨rfl, rfl, fun _ _ => rfl⟩, fun _ => Or.inl rfl, fun _ => id, fun _ _ => id,
    fun _ _ _ => rfl⟩

section Stable

variable {t : ℕ} {h h' : Heap}

/-- The header of a block stays. -/
theorem Rely.page_eq (hr : Rely t h h') (hi : h.Inv) {x : ℕ} {p : Place} (hx : x ∈ h.blocks p) :
    h'.header (page x) = h.header (page x) := by
  obtain ⟨r, hrc, hxr, -⟩ := hi.home hx
  rw [(hi.aligned r (hi.used r hrc)).page_eq hxr]
  exact hr.header r (hi.used r hrc) (Or.inl hrc)

/-- A queue keeps its first blocks. -/
theorem Rely.prefix_eq (hr : Rely t h h') {p : ℕ} {front rest : List ℕ}
    (hq : h.blocks (.queue t p) = front ++ rest) :
    ∃ rest', h'.blocks (.queue t p) = front ++ rest' := by
  rcases hr.incoming p with hquiet | ⟨x, harr⟩
  · exact ⟨rest, by rw [hquiet.blocks, hq]⟩
  · exact ⟨rest ++ [x], by rw [harr.blocks, hq, List.append_assoc]⟩

/-- The first of two blocks keeps its link. -/
theorem Rely.next_first (hr : Rely t h h') (hi : h.Inv) {p b c : ℕ} {rest : List ℕ}
    (hq : h.blocks (.queue t p) = b :: c :: rest) : h'.next b = h.next b := by
  have hb : b ∈ h.blocks (.queue t p) := by
    rw [hq]
    exact List.mem_cons_self
  rcases hr.incoming p with hquiet | ⟨x, harr⟩
  · exact hquiet.next b hb
  · refine harr.keep b hb fun hlast => ?_
    have hnd := hi.exclusive.nodup (.queue t p)
    rw [hq] at hlast hnd
    rw [List.getLast?_cons_cons] at hlast
    exact (List.nodup_cons.mp hnd).1 (List.mem_of_getLast? hlast)

/-- The others take nothing off the front of a queue. -/
theorem Rely.head_eq (hr : Rely t h h') {p b : ℕ} (hq : (h.blocks (.queue t p)).head? = some b) :
    (h'.blocks (.queue t p)).head? = some b := by
  obtain ⟨rest, hrest⟩ : ∃ rest, h.blocks (.queue t p) = [b] ++ rest := List.head?_eq_some_iff.mp hq
  obtain ⟨rest', hrest'⟩ := hr.prefix_eq hrest
  rw [hrest']
  rfl

/-- The tail of a queue that was taken from. -/
theorem tailOf_tail {b c : ℕ} {rest : List ℕ} : tailOf (b :: c :: rest) = tailOf (c :: rest) := by
  unfold tailOf
  rw [List.getLast?_cons_cons]

/-- What a thread knows stays so. -/
theorem Pc.Knows.stable (hi : h.Inv) (hr : Rely t h h') {pc : Pc}
    (hfreeing : h.blocks (.freeing t) = pc.frees.toList) (hk : pc.Knows t h) : pc.Knows t h' := by
  have hmem : ∀ x, pc.frees = some x → x ∈ h.blocks (.freeing t) := by
    intro x hx
    rw [hfreeing, hx]
    exact List.mem_singleton_self x
  have hpage : ∀ x, pc.frees = some x → h'.header (page x) = h.header (page x) :=
    fun x hx => hr.page_eq hi (hmem x hx)
  have hnext : ∀ x, pc.frees = some x → h'.next x = h.next x :=
    fun x hx => hr.next x (Or.inr (hmem x hx))
  have hqueue : ∀ {p b c}, (∃ rest, h.blocks (.queue t p) = b :: c :: rest) →
      (∃ rest, h'.blocks (.queue t p) = b :: c :: rest)
        ∧ h'.header (page b) = h.header (page b) ∧ h'.next b = h.next b := by
    rintro p b c ⟨rest, hq⟩
    have hb : b ∈ h.blocks (.queue t p) := by
      rw [hq]
      exact List.mem_cons_self
    obtain ⟨rest', hq'⟩ : ∃ rest', h'.blocks (.queue t p) = [b, c] ++ rest' := hr.prefix_eq hq
    exact ⟨⟨rest', hq'⟩, hr.page_eq hi hb, hr.next_first hi hq⟩
  cases pc with
  | freeTrap x s => exact (congrArg Header.scale (hpage x rfl)).trans hk
  | freeOwner x s => exact (congrArg Header.scale (hpage x rfl)).trans hk
  | freeHead x s => exact (hpage x rfl).trans hk
  | freeNext x s old => exact ⟨(hpage x rfl).trans hk.1, (hr.freeList s).trans hk.2⟩
  | freePush x s =>
    exact ⟨(hpage x rfl).trans hk.1, (hnext x rfl).trans (hk.2.trans (hr.freeList s).symm)⟩
  | freeOther x => exact fun heq => hk ((congrArg Header.owner (hpage x rfl)).symm.trans heq)
  | freeNull x o => exact ⟨(congrArg Header.owner (hpage x rfl)).trans hk.1, hk.2⟩
  | freeTail x o =>
    exact ⟨(congrArg Header.owner (hpage x rfl)).trans hk.1, hk.2.1, (hnext x rfl).trans hk.2.2⟩
  | freeLink x o tail =>
    exact ⟨(congrArg Header.owner (hpage x rfl)).trans hk.1, hk.2.1,
      (hnext x rfl).trans hk.2.2.1, (hr.blocksTo o).trans hk.2.2.2⟩
  | freeTo x o =>
    refine ⟨hk.1, ?_⟩
    rcases hr.outgoing o with heq | ⟨b, c, rest, heq, heq'⟩
    · rw [heq]
      exact hk.2
    · have hlast := hk.2
      rw [heq, List.getLast?_cons_cons] at hlast
      rw [heq', hlast]
  | popNext n b => exact (hr.freeList _).trans hk
  | popStore n b next =>
    refine ⟨(hr.freeList _).trans hk.1, ?_⟩
    have hb : b ∈ h.blocks (.free t (blockScale n)) :=
      (hi.free t (blockScale n)).mem_iff.mpr ⟨b, hk.1, Reach.refl b⟩
    exact (hr.next b (Or.inl ⟨_, hb⟩)).trans hk.2
  | inNext n p b => exact hr.head_eq hk
  | inDone n p b => exact hr.head_eq hk
  | inScale n p b c => exact (hqueue hk).1
  | inLoad n p b c s =>
    obtain ⟨hq, hh, -⟩ := hqueue hk.1
    exact ⟨hq, (congrArg Header.scale hh).trans hk.2⟩
  | inStore n p b c s old =>
    obtain ⟨hq, hh, -⟩ := hqueue hk.1
    exact ⟨hq, (congrArg Header.scale hh).trans hk.2.1, (hr.freeList s).trans hk.2.2⟩
  | inPush n p b c s =>
    obtain ⟨hq, hh, hn⟩ := hqueue hk.1
    exact ⟨hq, (congrArg Header.scale hh).trans hk.2.1,
      hn.trans (hk.2.2.trans (hr.freeList s).symm)⟩
  | mmap n => exact (hr.freeList _).trans hk
  | remap n => exact (hr.freeList _).trans hk
  | header n base =>
    exact ⟨(hr.freeList _).trans hk.1, hr.regions _ hk.2.1, hr.uncarved _ rfl hk.2.2⟩
  | carve n base =>
    exact ⟨(hr.freeList _).trans hk.1, hr.regions _ hk.2.1, hr.uncarved _ rfl hk.2.2.1,
      (hr.header _ hk.2.1 (Or.inr rfl)).trans hk.2.2.2⟩
  | returned b => trivial
  | freeScale x => trivial
  | popHead n again => trivial
  | inHead n p => trivial

/-- The local invariant is stable. -/
theorem Loc.stable (hi : h.Inv) (hr : Rely t h h') {pc : Pc} (hl : Loc t h pc) : Loc t h' pc := by
  refine ⟨fun p hp => ?_, fun p hp b rest hq => ?_, fun o ho => ?_, ?_, ?_⟩
  · have hcell := hl.cell p hp
    rcases hr.incoming p with hquiet | ⟨x, harr⟩
    · rw [hquiet.cell, hquiet.blocks, hcell]
    · rw [harr.cell, harr.blocks, List.head?_append]
      split_ifs with hnil
      · rw [hnil]
        rfl
      · obtain ⟨b, rest, hq⟩ := List.exists_cons_of_ne_nil hnil
        rw [hcell, hq]
        rfl
  · have hfirst := hl.first p hp
    rcases hr.incoming p with hquiet | ⟨x, harr⟩
    · rw [hquiet.blocks] at hq
      have hb : b ∈ h.blocks (.queue t p) := by
        rw [hq]
        exact List.mem_cons_self
      rw [hquiet.next b hb]
      exact hfirst b rest hq
    · rw [harr.blocks] at hq
      rcases hold : h.blocks (.queue t p) with _ | ⟨b', rest'⟩
      · rw [hold] at hq
        obtain ⟨rfl, rfl⟩ : x = b ∧ [] = rest := by simpa using hq
        exact harr.new
      · rw [hold, List.cons_append] at hq
        obtain ⟨rfl, rfl⟩ := List.cons.inj hq
        rcases rest' with _ | ⟨c, rest'⟩
        · exact harr.last b' (by rw [hold]; rfl)
        · rw [hr.next_first hi hold, hfirst b' _ hold]
          rfl
  · rw [hr.blocksTo o, hl.tail o ho]
    rcases hr.outgoing o with heq | ⟨b, c, rest, heq, heq'⟩
    · rw [heq]
    · rw [heq, heq', tailOf_tail]
  · rw [hr.freeing, hl.freeing]
  · exact hl.knows.stable hi hr hl.freeing

end Stable

end Mem
