/-
# The steps that move blocks

Each of these steps of a thread keeps the invariant, the thread knows what it must, and the
other threads get what they rely on (`StepOk`).

* `store_guarantee` — stores into blocks that a client holds, or that are being freed;
* `give_ok`, `push_ok`, `pop_ok`, `take_ok`, `done_ok`, `to_ok`, `send_ok` — the steps that
  move a block, or the ends of a queue;
* `claim_ok`, `setHeader_ok`, `carve_ok` — the steps of a new region.
-/
import Ssr.MemInv

open Interleaving Placement Chain

namespace Mem

/-! ## Stores into words -/

section Words

variable {t u : ℕ} {h : Heap} {next' : ℕ → Option ℕ}

/-- Stores that leave the free lists and the queues behind their first blocks alone. -/
theorem Heap.Inv.withNext (hi : h.Inv)
    (hfree : ∀ o s, ∀ x ∈ h.blocks (.free o s), next' x = h.next x)
    (hqueue : ∀ o p, ∀ x ∈ (h.blocks (.queue o p)).tail, next' x = h.next x) :
    ({ h with next := next' } : Heap).Inv :=
  ⟨hi.exclusive, hi.carved, hi.used, hi.aligned, hi.apart, hi.header,
    fun o s => (hi.free o s).congr (hfree o s), hi.freeHome,
    fun o p => (hi.queue o p).congr (hqueue o p), hi.queueHome⟩

/-- Stores that leave the blocks of thread `u` alone. -/
theorem Rely.withNext (hfree : ∀ s, ∀ x ∈ h.blocks (.free u s), next' x = h.next x)
    (hfreeing : ∀ x ∈ h.blocks (.freeing u), next' x = h.next x)
    (hqueue : ∀ p, ∀ x ∈ h.blocks (.queue u p), next' x = h.next x) :
    Rely u h { h with next := next' } where
  freeList _ := rfl
  free _ := rfl
  freeing := rfl
  next := by
    rintro x (⟨s, hx⟩ | hx)
    · exact hfree s x hx
    · exact hfreeing x hx
  blocksTo _ := rfl
  incoming p := Or.inl ⟨rfl, rfl, hqueue p⟩
  outgoing _ := Or.inl rfl
  regions _ := id
  uncarved _ _ := id
  header _ _ _ := rfl

/-- Stores into blocks that a client holds, or that are in a call of `nbd_free` of `t`. -/
theorem store_guarantee (hi : h.Inv) {p₀ : Place} (hp : p₀ = .held ∨ p₀ = .freeing t)
    (hkeep : ∀ q, q ≠ p₀ → ∀ x ∈ h.blocks q, next' x = h.next x) :
    ({ h with next := next' } : Heap).Inv ∧ (∀ u, u ≠ t → Rely u h { h with next := next' })
      ∧ ∀ p, ∀ x ∈ h.blocks (.queue t p), next' x = h.next x := by
  have hfree : ∀ o s, Place.free o s ≠ p₀ := by
    rcases hp with rfl | rfl <;> exact fun _ _ => nofun
  have hqueue : ∀ o p, Place.queue o p ≠ p₀ := by
    rcases hp with rfl | rfl <;> exact fun _ _ => nofun
  refine ⟨?_, fun u hu => ?_, fun p => hkeep _ (hqueue t p)⟩
  · exact hi.withNext (fun o s => hkeep _ (hfree o s))
      fun o p x hx => hkeep _ (hqueue o p) x (List.mem_of_mem_tail hx)
  · refine Rely.withNext (fun s => hkeep _ (hfree u s)) (hkeep _ ?_) fun p => hkeep _ (hqueue u p)
    rcases hp with rfl | rfl
    · exact nofun
    · exact fun heq => hu (Place.freeing.inj heq)

/-- The local invariant after a store into other blocks than those of the own queues. -/
theorem Loc.withNext {pc pc' : Pc} (hl : Loc t h pc) (hcursor : pc'.cursor = pc.cursor)
    (hunhooked : pc'.unhooked = pc.unhooked) (hlinking : pc'.linking = pc.linking)
    (hfrees : pc'.frees = pc.frees)
    (hqueue : ∀ p, ∀ x ∈ h.blocks (.queue t p), next' x = h.next x)
    (hknows : pc'.Knows t { h with next := next' }) : Loc t { h with next := next' } pc' := by
  refine ⟨?_, fun p hp b rest hq => ?_, ?_, ?_, hknows⟩
  · rw [hcursor]
    exact hl.cell
  · rw [hunhooked] at hp
    exact (hqueue p b (by rw [show h.blocks (.queue t p) = b :: rest from hq]; simp)).trans
      (hl.first p hp b rest hq)
  · rw [hlinking]
    exact hl.tail
  · rw [hfrees]
    exact hl.freeing

/-- The local invariant when nothing is stored. -/
theorem Loc.same {pc pc' : Pc} (hl : Loc t h pc)
    (hcursor : pc'.cursor = pc.cursor ∨ pc.cursor = none)
    (hunhooked : pc'.unhooked = pc.unhooked) (hlinking : pc'.linking = pc.linking)
    (hfrees : pc'.frees = pc.frees) (hknows : pc'.Knows t h) : Loc t h pc' := by
  refine ⟨fun p hp => hl.cell p ?_, ?_, ?_, ?_, hknows⟩
  · rcases hcursor with heq | heq
    · rwa [← heq]
    · rw [heq]
      exact nofun
  · rw [hunhooked]
    exact hl.first
  · rw [hlinking]
    exact hl.tail
  · rw [hfrees]
    exact hl.freeing

end Words

/-! ## Blocks that move -/

section Moves

variable {t : ℕ} {h : Heap}

/-- What one step of thread `t` must show. -/
def StepOk (t : ℕ) (h h' : Heap) (pc' : Pc) : Prop :=
  h'.Inv ∧ Loc t h' pc' ∧ ∀ u, u ≠ t → Rely u h h'

/-- A step that stores into no word and moves blocks only between the clients and the places
of thread `t`. -/
theorem Rely.of_own {u : ℕ} (hu : u ≠ t) {h' : Heap} (hnext : h'.next = h.next)
    (hlist : ∀ o, o ≠ t → h'.freeList o = h.freeList o)
    (hfrom : ∀ o, o ≠ t → h'.blocksFrom o = h.blocksFrom o)
    (hto : ∀ o, o ≠ t → h'.blocksTo o = h.blocksTo o)
    (hfree : ∀ o s, o ≠ t → h'.blocks (.free o s) = h.blocks (.free o s))
    (hfreeing : ∀ o, o ≠ t → h'.blocks (.freeing o) = h.blocks (.freeing o))
    (hqueue : ∀ o p, o ≠ t → h'.blocks (.queue o p) = h.blocks (.queue o p))
    (hout : ∀ p, h'.blocks (.queue t p) = h.blocks (.queue t p)
      ∨ ∃ b c rest, h.blocks (.queue t p) = b :: c :: rest ∧ h'.blocks (.queue t p) = c :: rest)
    (hregions : h'.regions = h.regions) (hcarved : h'.carved = h.carved)
    (hheader : h'.header = h.header) : Rely u h h' where
  freeList s := congrFun (hlist u hu) s
  free s := hfree u s hu
  freeing := hfreeing u hu
  next x _ := congrFun hnext x
  blocksTo o := congrFun (hto u hu) o
  incoming p := Or.inl ⟨hqueue u p hu, congrFun (hfrom u hu) p, fun y _ => congrFun hnext y⟩
  outgoing o := by
    by_cases ho : o = t
    · subst ho
      exact hout u
    · exact Or.inl (hqueue o u ho)
  regions r hr := by rwa [hregions]
  uncarved r _ hr := by rwa [hcarved]
  header r _ _ := by rw [hheader]

variable {x : ℕ}

@[simp] theorem setFree_self (t s : ℕ) (v : Option ℕ) : (h.setFree t s v).freeList t s = v := by
  simp [Heap.setFree]

theorem setFree_of_ne {t s o s' : ℕ} {v : Option ℕ} (hne : ¬ (o = t ∧ s' = s)) :
    (h.setFree t s v).freeList o s' = h.freeList o s' := by
  by_cases ho : o = t
  · subst ho
    have hs : s' ≠ s := fun hs => hne ⟨rfl, hs⟩
    simp [Heap.setFree, hs]
  · simp [Heap.setFree, ho]

theorem setFree_row {t s o : ℕ} {v : Option ℕ} (ho : o ≠ t) :
    (h.setFree t s v).freeList o = h.freeList o :=
  Function.update_of_ne ho ..

theorem toFront_of_ne {p q r : Place} (hp : r ≠ p) (hq : r ≠ q) :
    (h.toFront p q x).blocks r = h.blocks r :=
  moveFront_of_ne hp hq

theorem toFront_to {p q : Place} : (h.toFront p q x).blocks q = x :: h.blocks q := moveFront_to

theorem toFront_from {p q : Place} (hpq : p ≠ q) :
    (h.toFront p q x).blocks p = (h.blocks p).erase x := moveFront_from hpq

theorem toBack_of_ne {p q r : Place} (hp : r ≠ p) (hq : r ≠ q) :
    (h.toBack p q x).blocks r = h.blocks r :=
  moveBack_of_ne hp hq

/-- `nbd_free` is called. -/
theorem give_ok {r : Option ℕ} (hi : h.Inv) (hl : Loc t h (.returned r))
    (hx : x ∈ h.blocks .held) : StepOk t h (h.toFront .held (.freeing t) x) (.freeScale x) := by
  have hpq : Place.held ≠ .freeing t := nofun
  obtain ⟨hex, hmem⟩ := hi.exclusive.moveFront hpq hx
  have hfree : ∀ o s, (h.toFront .held (.freeing t) x).blocks (.free o s) = h.blocks (.free o s) :=
    fun o s => toFront_of_ne (by exact nofun) (by exact nofun)
  have hqueue : ∀ o p,
      (h.toFront .held (.freeing t) x).blocks (.queue o p) = h.blocks (.queue o p) :=
    fun o p => toFront_of_ne (by exact nofun) (by exact nofun)
  refine ⟨⟨hex, fun y => (hmem y).trans (hi.carved y), hi.used, hi.aligned, hi.apart, hi.header,
    ?_, ?_, ?_, ?_⟩, ⟨?_, ?_, ?_, ?_, trivial⟩, fun u hu => ?_⟩
  · intro o s
    rw [hfree]
    exact hi.free o s
  · intro o s
    rw [hfree]
    exact hi.freeHome o s
  · intro o p
    rw [hqueue]
    exact hi.queue o p
  · intro o p
    rw [hqueue]
    exact hi.queueHome o p
  · intro p hp
    rw [hqueue]
    exact hl.cell p hp
  · intro p hp b rest
    rw [hqueue]
    exact hl.first p hp b rest
  · intro o ho
    rw [hqueue]
    exact hl.tail o ho
  · refine moveFront_to.trans ?_
    rw [hl.freeing]
    rfl
  · exact Rely.of_own hu rfl (fun _ _ => rfl) (fun _ _ => rfl) (fun _ _ => rfl)
      (fun o s _ => hfree o s)
      (fun o ho => toFront_of_ne (by exact nofun) fun heq => ho (Place.freeing.inj heq))
      (fun o p _ => hqueue o p) (fun p => Or.inl (hqueue t p)) rfl rfl rfl

/-- The block goes to the free list of its owner. -/
theorem push_ok {s : ℕ} (hi : h.Inv) (hl : Loc t h (.freePush x s)) :
    StepOk t h ((h.setFree t s (some x)).toFront (.freeing t) (.free t s) x) (.returned none) := by
  obtain ⟨hhome, hnext⟩ := hl.knows
  have hfreeing : h.blocks (.freeing t) = [x] := hl.freeing
  have hx : x ∈ h.blocks (.freeing t) := by
    rw [hfreeing]
    exact List.mem_singleton_self x
  have hpq : Place.freeing t ≠ .free t s := nofun
  obtain ⟨hex, hmem⟩ := hi.exclusive.moveFront hpq hx
  set h' := (h.setFree t s (some x)).toFront (.freeing t) (.free t s) x
  have hto : h'.blocks (.free t s) = x :: h.blocks (.free t s) := moveFront_to
  have hfree : ∀ o s', ¬ (o = t ∧ s' = s) → h'.blocks (.free o s') = h.blocks (.free o s') :=
    fun o s' hne => toFront_of_ne (by exact nofun) fun heq => hne (Place.free.inj heq)
  have hqueue : ∀ o p, h'.blocks (.queue o p) = h.blocks (.queue o p) :=
    fun o p => toFront_of_ne (by exact nofun) (by exact nofun)
  refine ⟨⟨hex, fun y => (hmem y).trans (hi.carved y), hi.used, hi.aligned, hi.apart, hi.header,
    ?_, ?_, ?_, ?_⟩, ⟨?_, ?_, ?_, ?_, trivial⟩, fun u hu => ?_⟩
  · intro o s'
    by_cases hos : o = t ∧ s' = s
    · obtain ⟨rfl, rfl⟩ := hos
      rw [hto, show h'.freeList o s' = some x from setFree_self ..]
      refine ⟨rfl, ?_⟩
      rw [show h'.next x = h.freeList o s' from hnext]
      exact hi.free o s'
    · rw [hfree o s' hos, show h'.freeList o s' = h.freeList o s' from setFree_of_ne hos]
      exact hi.free o s'
  · intro o s' y hy
    by_cases hos : o = t ∧ s' = s
    · obtain ⟨rfl, rfl⟩ := hos
      rw [hto] at hy
      rcases List.mem_cons.mp hy with rfl | hy
      · exact hhome
      · exact hi.freeHome o s' y hy
    · rw [hfree o s' hos] at hy
      exact hi.freeHome o s' y hy
  · intro o p
    rw [hqueue]
    exact hi.queue o p
  · intro o p
    rw [hqueue]
    exact hi.queueHome o p
  · intro p hp
    rw [hqueue]
    exact hl.cell p hp
  · intro p hp b rest
    rw [hqueue]
    exact hl.first p hp b rest
  · intro o ho
    rw [hqueue]
    exact hl.tail o ho
  · refine (moveFront_from hpq).trans ?_
    rw [show (h.setFree t s (some x)).blocks (.freeing t) = [x] from hfreeing]
    simp [Pc.frees]
  · exact Rely.of_own hu rfl (fun o ho => setFree_row ho) (fun _ _ => rfl) (fun _ _ => rfl)
      (fun o s' ho => hfree o s' fun hc => ho hc.1)
      (fun o ho => toFront_of_ne (fun heq => ho (Place.freeing.inj heq)) (by exact nofun))
      (fun o p _ => hqueue o p) (fun p => Or.inl (hqueue t p)) rfl rfl rfl

/-- The first block of the free list is given out. -/
theorem pop_ok {n b s : ℕ} {next : Option ℕ} (hi : h.Inv) (hl : Loc t h (.popStore n b next))
    (hs : blockScale n = s) :
    StepOk t h (((h.setFree t s next).toFront (.free t s) .held b).ask b n)
      (.returned (some b)) := by
  obtain ⟨hhead, hnext⟩ := hl.knows
  rw [hs] at hhead
  have hspells := hi.free t s
  have hb : b ∈ h.blocks (.free t s) :=
    hspells.mem_iff.mpr ⟨b, hhead, Reach.refl b⟩
  have hpq : Place.free t s ≠ .held := nofun
  obtain ⟨hex, hmem⟩ := hi.exclusive.moveFront hpq hb
  obtain ⟨rest, hrest⟩ : ∃ rest, h.blocks (.free t s) = b :: rest := by
    refine List.head?_eq_some_iff.mp ?_
    rw [← hspells.head_eq, hhead]
  rw [hrest, hhead] at hspells
  set h' := ((h.setFree t s next).toFront (.free t s) .held b).ask b n
  have hmoved : h'.blocks = ((h.setFree t s next).toFront (.free t s) .held b).blocks := rfl
  have hfrom : h'.blocks (.free t s) = rest := by
    refine (moveFront_from hpq).trans ?_
    rw [show (h.setFree t s next).blocks (.free t s) = b :: rest from hrest,
      List.erase_cons_head]
  have hfree : ∀ o s', ¬ (o = t ∧ s' = s) →
      h'.blocks (.free o s') = h.blocks (.free o s') :=
    fun o s' hne => (congrFun hmoved _).trans
      (toFront_of_ne (fun heq => hne (Place.free.inj heq)) (by exact nofun))
  have hqueue : ∀ o p, h'.blocks (.queue o p) = h.blocks (.queue o p) :=
    fun o p => (congrFun hmoved _).trans (toFront_of_ne (by exact nofun) (by exact nofun))
  have hfreeing : ∀ o, h'.blocks (.freeing o) = h.blocks (.freeing o) :=
    fun o => (congrFun hmoved _).trans (toFront_of_ne (by exact nofun) (by exact nofun))
  refine ⟨⟨hex, fun y => (hmem y).trans (hi.carved y), hi.used, hi.aligned, hi.apart, hi.header,
    ?_, ?_, ?_, ?_⟩, ⟨?_, ?_, ?_, ?_, trivial⟩, fun u hu => ?_⟩
  · intro o s'
    by_cases hos : o = t ∧ s' = s
    · obtain ⟨rfl, rfl⟩ := hos
      rw [hfrom, show h'.freeList o s' = next from setFree_self .., ← hnext]
      exact hspells.2
    · rw [hfree o s' hos, show h'.freeList o s' = h.freeList o s' from setFree_of_ne hos]
      exact hi.free o s'
  · intro o s' y hy
    by_cases hos : o = t ∧ s' = s
    · obtain ⟨rfl, rfl⟩ := hos
      rw [hfrom] at hy
      exact hi.freeHome o s' y (hrest ▸ List.mem_cons_of_mem b hy)
    · rw [hfree o s' hos] at hy
      exact hi.freeHome o s' y hy
  · intro o p
    rw [hqueue]
    exact hi.queue o p
  · intro o p
    rw [hqueue]
    exact hi.queueHome o p
  · intro p hp
    rw [hqueue]
    exact hl.cell p hp
  · intro p hp b rest
    rw [hqueue]
    exact hl.first p hp b rest
  · intro o ho
    rw [hqueue]
    exact hl.tail o ho
  · rw [hfreeing, hl.freeing]
    rfl
  · exact Rely.of_own hu rfl (fun o ho => setFree_row ho) (fun _ _ => rfl) (fun _ _ => rfl)
      (fun o s' ho => hfree o s' fun hc => ho hc.1) (fun o _ => hfreeing o)
      (fun o p _ => hqueue o p) (fun p => Or.inl (hqueue t p)) rfl rfl rfl

/-- The first block of a queue goes to the free list of its scale. -/
theorem take_ok {n p b c s : ℕ} (hi : h.Inv) (hl : Loc t h (.inPush n p b c s)) :
    StepOk t h ((h.setFree t s (some b)).toFront (.queue t p) (.free t s) b) (.inNext n p c) := by
  obtain ⟨⟨rest, hrest⟩, hscale, hnext⟩ := hl.knows
  have hb : b ∈ h.blocks (.queue t p) := by
    rw [hrest]
    exact List.mem_cons_self
  have hpq : Place.queue t p ≠ .free t s := nofun
  obtain ⟨hex, hmem⟩ := hi.exclusive.moveFront hpq hb
  have hqspells := hi.queue t p
  rw [hrest] at hqspells
  set h' := (h.setFree t s (some b)).toFront (.queue t p) (.free t s) b
  have hto : h'.blocks (.free t s) = b :: h.blocks (.free t s) := moveFront_to
  have hfrom : h'.blocks (.queue t p) = c :: rest := by
    refine (moveFront_from hpq).trans ?_
    rw [show (h.setFree t s (some b)).blocks (.queue t p) = b :: c :: rest from hrest,
      List.erase_cons_head]
  have hfree : ∀ o s', ¬ (o = t ∧ s' = s) → h'.blocks (.free o s') = h.blocks (.free o s') :=
    fun o s' hne => toFront_of_ne (by exact nofun) fun heq => hne (Place.free.inj heq)
  have hqueue : ∀ o q, ¬ (o = t ∧ q = p) → h'.blocks (.queue o q) = h.blocks (.queue o q) :=
    fun o q hne => toFront_of_ne (fun heq => hne (Place.queue.inj heq)) (by exact nofun)
  have hfreeing : ∀ o, h'.blocks (.freeing o) = h.blocks (.freeing o) :=
    fun o => toFront_of_ne (by exact nofun) (by exact nofun)
  have howner := (hi.queueHome t p b hb).1
  have hself : t ≠ p := (hi.queueHome t p b hb).2
  refine ⟨⟨hex, fun y => (hmem y).trans (hi.carved y), hi.used, hi.aligned, hi.apart, hi.header,
    ?_, ?_, ?_, ?_⟩, ⟨?_, ?_, ?_, ?_, ?_⟩, fun u hu => ?_⟩
  · intro o s'
    by_cases hos : o = t ∧ s' = s
    · obtain ⟨rfl, rfl⟩ := hos
      rw [hto, show h'.freeList o s' = some b from setFree_self ..]
      refine ⟨rfl, ?_⟩
      rw [show h'.next b = h.freeList o s' from hnext]
      exact hi.free o s'
    · rw [hfree o s' hos, show h'.freeList o s' = h.freeList o s' from setFree_of_ne hos]
      exact hi.free o s'
  · intro o s' y hy
    by_cases hos : o = t ∧ s' = s
    · obtain ⟨rfl, rfl⟩ := hos
      rw [hto] at hy
      rcases List.mem_cons.mp hy with rfl | hy
      · show h.header (page y) = ⟨o, s'⟩
        rw [← howner, ← hscale]
      · exact hi.freeHome o s' y hy
    · rw [hfree o s' hos] at hy
      exact hi.freeHome o s' y hy
  · intro o q
    by_cases hoq : o = t ∧ q = p
    · obtain ⟨rfl, rfl⟩ := hoq
      rw [hfrom]
      have hspells : Spells h.next (h.next c) rest := hqspells.2
      rw [hspells.head_eq] at hspells
      exact hspells
    · rw [hqueue o q hoq]
      exact hi.queue o q
  · intro o q y hy
    by_cases hoq : o = t ∧ q = p
    · obtain ⟨rfl, rfl⟩ := hoq
      rw [hfrom] at hy
      exact hi.queueHome o q y (hrest ▸ List.mem_cons_of_mem b hy)
    · rw [hqueue o q hoq] at hy
      exact hi.queueHome o q y hy
  · intro q hq
    have hqp : q ≠ p := fun heq => hq (congrArg some heq.symm)
    rw [hqueue t q fun hc => hqp hc.2]
    exact hl.cell q hq
  · intro q _ b' rest' hq
    by_cases hqp : q = p
    · subst hqp
      rw [hfrom] at hq
      obtain ⟨rfl, rfl⟩ := List.cons.inj hq
      have hspells : Spells h.next (h.next c) rest := hqspells.2
      exact hspells.head_eq
    · rw [hqueue t q fun hc => hqp hc.2] at hq
      exact hl.first q (fun heq => hqp (Option.some.inj heq).symm) b' rest' hq
  · intro o ho
    rw [hqueue o t fun hc => hself hc.2]
    exact hl.tail o ho
  · rw [hfreeing, hl.freeing]
    rfl
  · show (h'.blocks (.queue t p)).head? = some c
    rw [hfrom]
    rfl
  · refine Rely.of_own hu rfl (fun o ho => setFree_row ho) (fun _ _ => rfl) (fun _ _ => rfl)
      (fun o s' ho => hfree o s' fun hc => ho hc.1) (fun o _ => hfreeing o)
      (fun o q ho => hqueue o q fun hc => ho hc.1) (fun q => ?_) rfl rfl rfl
    by_cases hqp : q = p
    · subst hqp
      exact Or.inr ⟨b, c, rest, hrest, hfrom⟩
    · exact Or.inl (hqueue t q fun hc => hqp hc.2)

/-- The next queue. -/
theorem cursor_incoming (n p : ℕ) : (incoming n p).cursor = none ∧ (incoming n p).unhooked = none
    ∧ (incoming n p).linking = none ∧ (incoming n p).frees = none
    ∧ (incoming n p).Knows t h := by
  unfold incoming
  split_ifs
  · exact ⟨rfl, rfl, rfl, rfl, trivial⟩
  · exact ⟨rfl, rfl, rfl, rfl, trivial⟩

/-- The last block stays on the queue. -/
theorem done_ok {n p b : ℕ} (hi : h.Inv) (hl : Loc t h (.inDone n p b)) :
    StepOk t h (h.setFrom t p (some b)) (incoming n (p + 1)) := by
  have hhead : (h.blocks (.queue t p)).head? = some b := hl.knows
  obtain ⟨-, hunhooked, hlinking, hfrees, hknows⟩ :=
    cursor_incoming (t := t) (h := h.setFrom t p (some b)) n (p + 1)
  refine ⟨⟨hi.exclusive, hi.carved, hi.used, hi.aligned, hi.apart, hi.header, hi.free, hi.freeHome,
    hi.queue, hi.queueHome⟩, ⟨fun q _ => ?_, ?_, ?_, ?_, hknows⟩, fun u hu => ?_⟩
  · by_cases hq : q = p
    · subst hq
      simp only [Heap.setFrom, Function.update_self]
      exact hhead.symm
    · simp only [Heap.setFrom, Function.update_self, Function.update_of_ne hq]
      exact hl.cell q fun heq => hq (Option.some.inj heq).symm
  · rw [hunhooked]
    exact hl.first
  · rw [hlinking]
    exact hl.tail
  · rw [hfrees]
    exact hl.freeing
  · exact Rely.of_own hu rfl (fun _ _ => rfl) (fun o ho => Function.update_of_ne ho ..)
      (fun _ _ => rfl) (fun _ _ _ => rfl) (fun _ _ => rfl) (fun _ _ _ => rfl)
      (fun _ => Or.inl rfl) rfl rfl rfl

/-- `blocks_to` points to the block that was put on the queue. -/
theorem to_ok {x o : ℕ} (hi : h.Inv) (hl : Loc t h (.freeTo x o)) :
    StepOk t h (h.setTo t o x) (.returned none) := by
  obtain ⟨-, hlast⟩ := hl.knows
  refine ⟨⟨hi.exclusive, hi.carved, hi.used, hi.aligned, hi.apart, hi.header, hi.free, hi.freeHome,
    hi.queue, hi.queueHome⟩, ⟨hl.cell, hl.first, fun o' _ => ?_, hl.freeing, trivial⟩,
    fun u hu => ?_⟩
  · by_cases ho : o' = o
    · subst ho
      simp only [Heap.setTo, Function.update_self, tailOf]
      rw [hlast]
    · simp only [Heap.setTo, Function.update_self, Function.update_of_ne ho]
      exact hl.tail o' fun heq => ho (Option.some.inj heq).symm
  · exact Rely.of_own hu rfl (fun _ _ => rfl) (fun _ _ => rfl)
      (fun o' ho => Function.update_of_ne ho ..) (fun _ _ _ => rfl) (fun _ _ => rfl)
      (fun _ _ _ => rfl) (fun _ => Or.inl rfl) rfl rfl rfl

/-- What `tail->next = b` changes: the word of the last block, or the cell of an empty queue. -/
theorem link_stores {o : ℕ} {tail : Tail} {q : List ℕ} (htail : tail = tailOf q) :
    (h.link o t tail x).blocks = h.blocks
      ∧ (∀ y, (h.link o t tail x).next y = if q.getLast? = some y then some x else h.next y)
      ∧ ∀ o' p, (h.link o t tail x).blocksFrom o' p
        = if o' = o ∧ p = t ∧ q = [] then some x else h.blocksFrom o' p := by
  rcases q with _ | ⟨b, rest⟩
  · have hcell : tail = .cell := htail
    subst hcell
    refine ⟨rfl, fun y => by simp [Heap.link, Heap.setFrom], fun o' p => ?_⟩
    simp only [Heap.link, Heap.setFrom, Function.update_apply, and_true]
    by_cases ho : o' = o
    · subst ho
      by_cases hp : p = t
      · simp [hp]
      · simp [hp]
    · simp [ho]
  · obtain ⟨l, hlast⟩ : ∃ l, (b :: rest).getLast? = some l := ⟨_, List.getLast?_cons ..⟩
    have hblock : tail = .block l := by rw [htail, tailOf, hlast]
    subst hblock
    refine ⟨rfl, fun y => ?_, fun o' p => by simp [Heap.link, Heap.setNext]⟩
    simp only [Heap.link, Heap.setNext, Function.update_apply, hlast, Option.some.injEq]
    exact if_congr eq_comm rfl rfl

/-- What it leaves alone. -/
theorem link_frame {o : ℕ} {tail : Tail} : (h.link o t tail x).header = h.header
    ∧ (h.link o t tail x).freeList = h.freeList ∧ (h.link o t tail x).blocksTo = h.blocksTo
    ∧ (h.link o t tail x).regions = h.regions ∧ (h.link o t tail x).carved = h.carved := by
  cases tail with
  | cell => exact ⟨rfl, rfl, rfl, rfl, rfl⟩
  | block y => exact ⟨rfl, rfl, rfl, rfl, rfl⟩

/-- The links of a queue at the back of which a block has come. -/
theorem Arrival.spells {h' : Heap} {o p : ℕ} (ha : Arrival h h' o p x)
    (hspells : Spells h.next (h.blocks (.queue o p)).tail.head? (h.blocks (.queue o p)).tail)
    (hnd : (h.blocks (.queue o p)).Nodup) :
    Spells h'.next (h'.blocks (.queue o p)).tail.head? (h'.blocks (.queue o p)).tail := by
  rw [ha.blocks]
  have hlast := ha.last
  have hkeep := ha.keep
  rcases hq : h.blocks (.queue o p) with _ | ⟨b, _ | ⟨c, rest⟩⟩
  · rfl
  · exact ⟨rfl, ha.new⟩
  · rw [hq] at hspells hnd hlast hkeep
    have hend : (b :: c :: rest).getLast? = some (rest.getLastD c) := by
      rw [List.getLast?_cons_cons, List.getLast?_cons]
      simp
    refine Spells.snoc hspells (List.nodup_cons.mp hnd).2 ha.new (hlast _ hend) fun y hy hne => ?_
    refine hkeep y (List.mem_cons_of_mem b hy) fun heq => hne ?_
    exact (Option.some.inj (hend.symm.trans heq)).symm

/-- The block goes to the back of the queue to its owner. -/
theorem send_ok {x o : ℕ} {tail : Tail} (hi : h.Inv) (hl : Loc t h (.freeLink x o tail)) :
    StepOk t h ((h.link o t tail x).toBack (.freeing t) (.queue o t) x) (.freeTo x o) := by
  obtain ⟨howner, hne, hnext, hto⟩ := hl.knows
  have htail : tail = tailOf (h.blocks (.queue o t)) := by
    rw [← hto]
    exact hl.tail o nofun
  have hfreeing : h.blocks (.freeing t) = [x] := hl.freeing
  have hx : x ∈ h.blocks (.freeing t) := by
    rw [hfreeing]
    exact List.mem_singleton_self x
  have hpq : Place.freeing t ≠ .queue o t := nofun
  obtain ⟨hex, hmem⟩ := hi.exclusive.moveBack hpq hx
  -- what the store does to the words and to the cell of the queue
  obtain ⟨hstore, hwords, hcells⟩ := link_stores htail
  set h' := (h.link o t tail x).toBack (.freeing t) (.queue o t) x
  have hblocks : h'.blocks = moveBack h.blocks (.freeing t) (.queue o t) x := by
    show moveBack (h.link o t tail x).blocks _ _ _ = _
    rw [hstore]
  have hlink : h'.header = h.header ∧ h'.freeList = h.freeList ∧ h'.blocksTo = h.blocksTo
      ∧ h'.regions = h.regions ∧ h'.carved = h.carved := link_frame
  obtain ⟨hheader, hlist, htos, hregions, hcarved⟩ := hlink
  have hnexts : ∀ y, h'.next y
      = if (h.blocks (.queue o t)).getLast? = some y then some x else h.next y := hwords
  have hback : h'.blocks (.queue o t) = h.blocks (.queue o t) ++ [x] := by
    rw [hblocks]
    exact moveBack_to
  have hother : ∀ r, r ≠ .freeing t → r ≠ .queue o t → h'.blocks r = h.blocks r := by
    intro r hr hr'
    rw [hblocks]
    exact moveBack_of_ne hr hr'
  have hqueue : ∀ o' p, ¬ (o' = o ∧ p = t) → h'.blocks (.queue o' p) = h.blocks (.queue o' p) :=
    fun o' p hc => hother _ (by exact nofun) fun heq => hc (Place.queue.inj heq)
  have hfree : ∀ o' s, h'.blocks (.free o' s) = h.blocks (.free o' s) :=
    fun o' s => hother _ (by exact nofun) (by exact nofun)
  -- the last block of the queue is on no other chain
  have hkeep : ∀ r, r ≠ .queue o t → ∀ y ∈ h.blocks r, h'.next y = h.next y := by
    intro r hr y hy
    rw [hnexts, if_neg fun hlast => hr ?_]
    exact hi.exclusive.unique r (.queue o t) y hy (List.mem_of_getLast? hlast)
  have hxnew : h'.next x = none := by
    rw [hkeep (.freeing t) (by exact nofun) x hx, hnext]
  have harrival : Arrival h h' o t x := by
    refine ⟨hback, ?_, hxnew, fun l hl => ?_, fun y _ hy => ?_⟩
    · refine (hcells o t).trans ?_
      simp only [true_and]
    · rw [hnexts]
      exact if_pos (Option.mem_def.mp hl)
    · rw [hnexts, if_neg hy]
  have hquiet : ∀ o' p, ¬ (o' = o ∧ p = t) → Quiet h h' o' p := by
    intro o' p hc
    refine ⟨hqueue o' p hc, (hcells o' p).trans (if_neg fun h => hc ⟨h.1, h.2.1⟩), ?_⟩
    exact hkeep _ fun heq => hc (Place.queue.inj heq)
  refine ⟨⟨by rw [hblocks]; exact hex, fun y => ?_, ?_, ?_, ?_, ?_, ?_, ?_, ?_, ?_⟩,
    ⟨?_, ?_, ?_, ?_, ?_⟩, fun u hu => ?_⟩
  · rw [hblocks, hmem, hcarved]
    exact hi.carved y
  · rw [hcarved, hregions]
    exact hi.used
  · rw [hregions]
    exact hi.aligned
  · rw [hregions]
    exact hi.apart
  · rw [hcarved, hheader]
    exact hi.header
  · intro o' s
    rw [hfree, hlist]
    exact (hi.free o' s).congr (hkeep _ (by exact nofun))
  · intro o' s
    rw [hfree, hheader]
    exact hi.freeHome o' s
  · intro o' p
    by_cases hc : o' = o ∧ p = t
    · obtain ⟨rfl, rfl⟩ := hc
      exact harrival.spells (hi.queue o' p) (hi.exclusive.nodup (.queue o' p))
    · rw [hqueue o' p hc]
      exact (hi.queue o' p).congr fun y hy =>
        hkeep _ (fun heq => hc (Place.queue.inj heq)) y (List.mem_of_mem_tail hy)
  · intro o' p y hy
    rw [hheader]
    by_cases hc : o' = o ∧ p = t
    · obtain ⟨rfl, rfl⟩ := hc
      rw [hback, List.mem_append, List.mem_singleton] at hy
      rcases hy with hy | rfl
      · exact hi.queueHome o' p y hy
      · exact ⟨howner, hne⟩
    · rw [hqueue o' p hc] at hy
      exact hi.queueHome o' p y hy
  · intro p hp
    have hc : ¬ (t = o ∧ p = t) := fun hc => hne hc.1.symm
    rw [(hquiet t p hc).cell, (hquiet t p hc).blocks]
    exact hl.cell p nofun
  · intro p _ b rest hq
    have hc : ¬ (t = o ∧ p = t) := fun hc => hne hc.1.symm
    rw [(hquiet t p hc).blocks] at hq
    rw [(hquiet t p hc).next b (by rw [hq]; exact List.mem_cons_self)]
    exact hl.first p nofun b rest hq
  · intro o' ho
    have hc : ¬ (o' = o ∧ t = t) := fun hc => ho (congrArg some hc.1.symm)
    rw [htos, hqueue o' t hc]
    exact hl.tail o' nofun
  · rw [hblocks]
    refine (moveBack_from hpq).trans ?_
    rw [hfreeing]
    simp [Pc.frees]
  · refine ⟨hne, ?_⟩
    rw [hback]
    exact List.getLast?_concat
  · refine ⟨fun s => by rw [hlist], fun s => hfree u s,
      hother _ (fun heq => hu (Place.freeing.inj heq)) (by exact nofun), ?_, fun o' => by rw [htos], ?_, ?_,
      fun r hr => by rwa [hregions], fun r _ hr => by rwa [hcarved], fun r _ _ => by rw [hheader]⟩
    · rintro y (⟨s, hy⟩ | hy)
      · exact hkeep _ (by exact nofun) y hy
      · exact hkeep _ (by exact nofun) y hy
    · intro p
      by_cases hc : u = o ∧ p = t
      · obtain ⟨rfl, rfl⟩ := hc
        exact Or.inr ⟨x, harrival⟩
      · exact Or.inl (hquiet u p hc)
    · intro o'
      exact Or.inl (hqueue o' u fun hc => hu hc.2)

end Moves

/-! ## New regions -/

section Regions

variable {t : ℕ} {h : Heap} {r : Region} {x : ℕ} {p : Place}

theorem Region.Apart.symm {r' : Region} (h : r.Apart r') : r'.Apart r := Or.symm h

theorem Region.Apart.ne {r' : Region} (h : r.Apart r') : r ≠ r' := by
  rintro rfl
  have hpos : 0 < regionSize r.scale := lt_of_lt_of_le (Nat.two_pow_pos _) (pageSize_le r.scale)
  unfold Region.Apart at h
  omega

/-- The blocks of a region that was not broken up are nowhere. -/
theorem Heap.Inv.notMem (hi : h.Inv) (hr : r ∈ h.regions) (hnew : r ∉ h.carved)
    (hx : x ∈ r.blocks) : x ∉ h.blocks p := by
  intro hmem
  obtain ⟨r', hr', hxr'⟩ := (hi.carved x).mp ⟨p, hmem⟩
  have hne : r ≠ r' := fun heq => hnew (heq ▸ hr')
  have hpos : 0 < 2 ^ r.scale := Nat.two_pow_pos _
  have hpos' : 0 < 2 ^ r'.scale := Nat.two_pow_pos _
  have := (hi.apart r hr r' (hi.used r' hr') hne).blocks hx hxr'
  omega

/-- The blocks in places are not on the page of such a region. -/
theorem Heap.Inv.page_ne (hi : h.Inv) (hr : r ∈ h.regions) (hnew : r ∉ h.carved)
    (hx : x ∈ h.blocks p) : page x ≠ page r.base := by
  obtain ⟨r', hr', hxr', -⟩ := hi.home hx
  have hused := hi.used r' hr'
  have hne : r' ≠ r := fun heq => hnew (heq ▸ hr')
  rw [(hi.aligned r' hused).page_eq hxr']
  exact (hi.apart r' hused r hr hne).page_ne (hi.aligned r' hused) (hi.aligned r hr)

/-- `mmap` returned a region. -/
theorem claim_ok {n base s : ℕ} {pc : Pc} (hs : blockScale n = s) (hi : h.Inv) (hl : Loc t h pc)
    (hunhooked : pc.unhooked = none) (hcursor : pc.cursor = none) (hlinking : pc.linking = none)
    (hfrees : pc.frees = none) (hlist : h.freeList t s = none)
    (haligned : Region.Aligned ⟨base, s, t⟩)
    (hapart : ∀ r ∈ h.regions, Region.Apart ⟨base, s, t⟩ r) :
    StepOk t h (h.claim ⟨base, s, t⟩) (.header n base) := by
  have hnew : (⟨base, s, t⟩ : Region) ∉ h.carved :=
    fun hmem => (hapart _ (hi.used _ hmem)).ne rfl
  refine ⟨⟨hi.exclusive, hi.carved, fun r hr => List.mem_cons_of_mem _ (hi.used r hr), ?_, ?_,
    hi.header, hi.free, hi.freeHome, hi.queue, hi.queueHome⟩, ?_, fun u _ => ?_⟩
  · intro r hr
    rcases List.mem_cons.mp hr with rfl | hr
    · exact haligned
    · exact hi.aligned r hr
  · intro r hr r' hr' hne
    rcases List.mem_cons.mp hr with rfl | hr
    · rcases List.mem_cons.mp hr' with rfl | hr'
      · exact absurd rfl hne
      · exact hapart r' hr'
    · rcases List.mem_cons.mp hr' with rfl | hr'
      · exact (hapart r hr).symm
      · exact hi.apart r hr r' hr' hne
  · refine ⟨fun p _ => hl.cell p ?_, fun p _ => hl.first p ?_, fun o _ => hl.tail o ?_, ?_, ?_⟩
    · rw [hcursor]
      exact nofun
    · rw [hunhooked]
      exact nofun
    · rw [hlinking]
      exact nofun
    · exact hl.freeing.trans (by rw [hfrees]; rfl)
    · show h.freeList t (blockScale n) = none ∧ _ ∈ _ :: h.regions ∧ _ ∉ h.carved
      rw [hs]
      exact ⟨hlist, List.mem_cons_self, hnew⟩
  · exact ⟨fun _ => rfl, fun _ => rfl, rfl, fun _ _ => rfl, fun _ => rfl,
      fun _ => Or.inl ⟨rfl, rfl, fun _ _ => rfl⟩, fun _ => Or.inl rfl,
      fun r hr => List.mem_cons_of_mem _ hr, fun _ _ => id, fun _ _ _ => rfl⟩

/-- The header of a new page is set. -/
theorem setHeader_ok {n base s : ℕ} (hs : blockScale n = s) (hi : h.Inv)
    (hl : Loc t h (.header n base)) :
    StepOk t h (h.setHeader ⟨base, s, t⟩) (.carve n base) := by
  obtain ⟨hlist, hregion, hnew⟩ := hl.knows
  rw [hs] at hlist hregion hnew
  set r₀ : Region := ⟨base, s, t⟩
  have hother : ∀ r ∈ h.regions, r ≠ r₀ →
      (h.setHeader r₀).header (page r.base) = h.header (page r.base) := by
    intro r hr hne
    refine Function.update_of_ne ?_ ..
    exact (hi.apart r hr r₀ hregion hne).page_ne (hi.aligned r hr) (hi.aligned r₀ hregion)
  have hblock : ∀ q, ∀ y ∈ h.blocks q, (h.setHeader r₀).header (page y) = h.header (page y) :=
    fun q y hy => Function.update_of_ne (hi.page_ne hregion hnew hy) ..
  refine ⟨⟨hi.exclusive, hi.carved, hi.used, hi.aligned, hi.apart, fun r hr => ?_, hi.free,
    fun o s' y hy => ?_, hi.queue, fun o p y hy => ?_⟩,
    ⟨hl.cell, hl.first, hl.tail, hl.freeing, ?_⟩, fun u hu => ?_⟩
  · rw [hother r (hi.used r hr) fun heq => hnew (heq ▸ hr)]
    exact hi.header r hr
  · rw [hblock _ y hy]
    exact hi.freeHome o s' y hy
  · rw [hblock _ y hy]
    exact hi.queueHome o p y hy
  · show h.freeList t (blockScale n) = none ∧ _ ∈ h.regions ∧ _ ∉ h.carved
      ∧ (h.setHeader r₀).header (page base) = ⟨t, blockScale n⟩
    rw [hs]
    exact ⟨hlist, hregion, hnew, Function.update_self ..⟩
  · refine ⟨fun _ => rfl, fun _ => rfl, rfl, fun _ _ => rfl, fun _ => rfl,
      fun _ => Or.inl ⟨rfl, rfl, fun _ _ => rfl⟩, fun _ => Or.inl rfl, fun _ => id, fun _ _ => id,
      fun r hr hmine => hother r hr ?_⟩
    rintro rfl
    rcases hmine with hmine | hmine
    · exact hnew hmine
    · exact hu hmine.symm

/-- The links of a new page. -/
theorem spells_range {next : ℕ → Option ℕ} {base size n : ℕ}
    (hnext : ∀ i, 1 ≤ i → i < n →
      next (base + i * size) = if i + 1 < n then some (base + (i + 1) * size) else none)
    (k j : ℕ) (hj : 1 ≤ j) (hjk : j + k = n) :
    Spells next (if j < n then some (base + j * size) else none)
      ((List.range' j k).map fun i => base + i * size) := by
  induction k generalizing j with
  | zero =>
    rw [if_neg (by omega)]
    rfl
  | succ k ih =>
    rw [if_pos (by omega)]
    refine ⟨rfl, ?_⟩
    rw [hnext j hj (by omega)]
    exact ih (j + 1) (by omega) (by omega)

/-- The free list of a new page. -/
theorem carve_spells (h : Heap) (r : Region) (hempty : h.freeList r.owner r.scale = none) :
    Spells (h.carve r).next ((h.carve r).freeList r.owner r.scale) r.blocks.tail := by
  set n := 2 ^ (pageScale - r.scale) with hn
  have hnpos : 0 < n := Nat.two_pow_pos _
  have hnext : ∀ i, 1 ≤ i → i < n → (h.carve r).next (r.base + i * 2 ^ r.scale)
      = if i + 1 < n then some (r.base + (i + 1) * 2 ^ r.scale) else none := by
    intro i hi hin
    have hmem : r.base + i * 2 ^ r.scale ∈ r.blocks.tail := by
      rw [blocks_tail, List.mem_map]
      exact ⟨i, List.mem_range'_1.mpr ⟨hi, by omega⟩, rfl⟩
    -- a page with a second block is broken up into all of its blocks
    have hscale : r.scale ≤ pageScale := by
      by_contra hgt
      rw [Nat.sub_eq_zero_of_le (by omega), pow_zero] at hn
      omega
    have hsize : n * 2 ^ r.scale = pageSize := by
      rw [hn, ← pow_add, Nat.sub_add_cancel hscale, pageSize]
    have hend : r.base + i * 2 ^ r.scale + 2 ^ r.scale < r.base + pageSize ↔ i + 1 < n := by
      rw [← hsize, add_assoc, ← Nat.add_one_mul, Nat.add_lt_add_iff_left]
      exact Nat.mul_lt_mul_right (Nat.two_pow_pos _)
    show (if _ then _ else _) = _
    rw [if_pos hmem]
    refine if_congr hend ?_ rfl
    rw [Nat.add_one_mul, add_assoc]
  have hspells := spells_range hnext (n - 1) 1 le_rfl (by omega)
  rw [one_mul] at hspells
  rw [blocks_tail]
  convert hspells using 1
  show (if r.scale < pageScale then _ else h.freeList) r.owner r.scale = _
  by_cases hscale : r.scale < pageScale
  · have hone : 1 < n := Nat.one_lt_two_pow (by omega)
    rw [if_pos hscale, if_pos hone, Function.update_self, Function.update_self]
  · have hone : ¬ 1 < n := by
      rw [hn, Nat.sub_eq_zero_of_le (not_lt.mp hscale)]
      decide
    rw [if_neg hscale, if_neg hone, hempty]

theorem carve_freeList_of_ne {o s : ℕ} (hne : ¬ (o = r.owner ∧ s = r.scale)) :
    (h.carve r).freeList o s = h.freeList o s := by
  show (if r.scale < pageScale then _ else h.freeList) o s = _
  split_ifs
  · by_cases ho : o = r.owner
    · subst ho
      rw [Function.update_self, Function.update_of_ne fun hs => hne ⟨rfl, hs⟩]
    · rw [Function.update_of_ne ho]
  · rfl

theorem carve_freeList_row {o : ℕ} (ho : o ≠ r.owner) :
    (h.carve r).freeList o = h.freeList o := by
  show (if r.scale < pageScale then _ else h.freeList) o = _
  split_ifs
  · rw [Function.update_of_ne ho]
  · rfl

theorem carve_next_of_notMem (hx : x ∉ r.blocks) : (h.carve r).next x = h.next x :=
  if_neg fun hmem => hx (List.mem_of_mem_tail hmem)

theorem carve_blocks_of_ne {q : Place} (hheld : q ≠ .held) (hfree : q ≠ .free r.owner r.scale) :
    (h.carve r).blocks q = h.blocks q :=
  (Function.update_of_ne hheld ..).trans (Function.update_of_ne hfree ..)

theorem carve_free : (h.carve r).blocks (.free r.owner r.scale)
    = r.blocks.tail ++ h.blocks (.free r.owner r.scale) := by
  have hne : Place.free r.owner r.scale ≠ .held := nofun
  simp only [Heap.carve, Function.update_of_ne hne, Function.update_self]

theorem carve_held : (h.carve r).blocks .held = r.base :: h.blocks .held := by
  simp only [Heap.carve, Function.update_self]

/-- The blocks of a new region are in places. -/
theorem carve_exclusive (hi : h.Inv) (hr : r ∈ h.regions) (hnew : r ∉ h.carved) :
    Exclusive (h.carve r).blocks
      ∧ ∀ y, (∃ q, y ∈ (h.carve r).blocks q) ↔ y ∈ r.blocks ∨ ∃ q, y ∈ h.blocks q := by
  have hnd := nodup_blocks r
  rw [blocks_cons] at hnd
  have hbase : r.base ∈ r.blocks := by
    rw [blocks_cons]
    exact List.mem_cons_self
  set mid := Function.update h.blocks (.free r.owner r.scale)
    (r.blocks.tail ++ h.blocks (.free r.owner r.scale)) with hmid
  have hmidself : mid (.free r.owner r.scale)
      = r.blocks.tail ++ h.blocks (.free r.owner r.scale) := Function.update_self ..
  have hmidne : ∀ q, q ≠ .free r.owner r.scale → mid q = h.blocks q :=
    fun q hq => Function.update_of_ne hq ..
  obtain ⟨hex, hmem⟩ := hi.exclusive.add mid r.blocks.tail (List.nodup_cons.mp hnd).2
    (fun x hx q => hi.notMem hr hnew (List.mem_of_mem_tail hx)) (by rw [hmidself]) hmidne
  have hbasenew : ∀ q, r.base ∉ mid q := by
    intro q hq
    rcases (hmem r.base).mp ⟨q, hq⟩ with htail | ⟨q', hq'⟩
    · exact (List.nodup_cons.mp hnd).1 htail
    · exact hi.notMem hr hnew hbase hq'
  have hmidheld : mid .held = h.blocks .held := hmidne .held (by exact nofun)
  obtain ⟨hex', hmem'⟩ := hex.add (h.carve r).blocks [r.base] (List.nodup_singleton _)
    (fun x hx q => by rw [List.mem_singleton.mp hx]; exact hbasenew q)
    (by rw [carve_held, hmidheld]; rfl) (fun q hq => Function.update_of_ne hq ..)
  refine ⟨hex', fun y => ?_⟩
  rw [hmem', hmem, List.mem_singleton, blocks_cons, List.mem_cons, or_assoc]
  rfl

/-- A new page is broken up into blocks. -/
theorem carve_ok {n base s : ℕ} (hs : blockScale n = s) (hi : h.Inv)
    (hl : Loc t h (.carve n base)) :
    StepOk t h ((h.carve ⟨base, s, t⟩).ask base n) (.returned (some base)) := by
  obtain ⟨hlist, hregion, hnew, hheader⟩ := hl.knows
  rw [hs] at hlist hregion hnew hheader
  obtain ⟨hex, hmem⟩ := carve_exclusive hi hregion hnew
  have hspells := carve_spells h ⟨base, s, t⟩ hlist
  have haligned := hi.aligned _ hregion
  have hempty : h.blocks (.free t s) = [] := by
    have hold := hi.free t s
    rw [hlist] at hold
    exact List.head?_eq_none_iff.mp hold.head_eq.symm
  have hkeep : ∀ q, ∀ y ∈ h.blocks q, (h.carve ⟨base, s, t⟩).next y = h.next y :=
    fun q y hy => carve_next_of_notMem fun hmem => hi.notMem hregion hnew hmem hy
  have hqueue : ∀ o p, (h.carve ⟨base, s, t⟩).blocks (.queue o p) = h.blocks (.queue o p) :=
    fun o p => carve_blocks_of_ne (by exact nofun) (by exact nofun)
  have hfreeing : ∀ o, (h.carve ⟨base, s, t⟩).blocks (.freeing o) = h.blocks (.freeing o) :=
    fun o => carve_blocks_of_ne (by exact nofun) (by exact nofun)
  have hfree : ∀ o s', ¬ (o = t ∧ s' = s) →
      (h.carve ⟨base, s, t⟩).blocks (.free o s') = h.blocks (.free o s') :=
    fun o s' hne => carve_blocks_of_ne (by exact nofun) fun heq => hne (Place.free.inj heq)
  have hself : (h.carve ⟨base, s, t⟩).blocks (.free t s) = (Region.mk base s t).blocks.tail := by
    refine carve_free.trans ?_
    show _ ++ h.blocks (.free t s) = _
    rw [hempty, List.append_nil]
  refine ⟨⟨hex, fun y => ?_, ?_, hi.aligned, hi.apart, ?_, ?_, ?_, ?_, ?_⟩,
    ⟨?_, ?_, ?_, ?_, trivial⟩, fun u hu => ?_⟩
  · refine (hmem y).trans ?_
    rw [hi.carved]
    show _ ↔ ∃ r ∈ _ :: h.carved, _
    rw [List.exists_mem_cons_iff]
  · intro r hr
    rcases List.mem_cons.mp hr with rfl | hr
    · exact hregion
    · exact hi.used r hr
  · intro r hr
    rcases List.mem_cons.mp hr with rfl | hr
    · exact hheader
    · exact hi.header r hr
  · intro o s'
    by_cases hos : o = t ∧ s' = s
    · obtain ⟨rfl, rfl⟩ := hos
      show Spells _ _ ((h.carve _).blocks (.free o s'))
      rw [hself]
      exact hspells
    · show Spells _ ((h.carve _).freeList o s') ((h.carve _).blocks (.free o s'))
      rw [hfree o s' hos, carve_freeList_of_ne hos]
      exact (hi.free o s').congr (hkeep _)
  · intro o s' y hy
    by_cases hos : o = t ∧ s' = s
    · obtain ⟨rfl, rfl⟩ := hos
      have hy' : y ∈ (Region.mk base s' o).blocks.tail := hself ▸ hy
      refine (congrArg h.header (haligned.page_eq (List.mem_of_mem_tail hy'))).trans hheader
    · exact hi.freeHome o s' y (hfree o s' hos ▸ hy)
  · intro o p
    have hold := (hi.queue o p).congr fun y hy => hkeep _ y (List.mem_of_mem_tail hy)
    rw [← hqueue o p] at hold
    exact hold
  · intro o p y hy
    exact hi.queueHome o p y (hqueue o p ▸ hy)
  · intro p _
    exact (hl.cell p nofun).trans (congrArg List.head? (hqueue t p).symm)
  · intro p _ b rest hq
    have hold : h.blocks (.queue t p) = b :: rest := (hqueue t p).symm.trans hq
    refine (hkeep _ b (by rw [hold]; exact List.mem_cons_self)).trans ?_
    exact hl.first p nofun b rest hold
  · intro o _
    exact (hl.tail o nofun).trans (congrArg tailOf (hqueue o t).symm)
  · exact (hfreeing t).trans hl.freeing
  · refine ⟨fun s' => congrFun (carve_freeList_row hu) s', fun s' => hfree u s' fun hc => hu hc.1,
      hfreeing u, ?_, fun _ => rfl, fun p => Or.inl ⟨hqueue u p, rfl, hkeep _⟩,
      fun o => Or.inl (hqueue o u), fun _ => id, fun r hr hold hmem => ?_, fun _ _ _ => rfl⟩
    · rintro y (⟨s', hy⟩ | hy)
      · exact hkeep _ y hy
      · exact hkeep _ y hy
    · rcases List.mem_cons.mp hmem with rfl | hmem
      · exact hu hr.symm
      · exact hold hmem

end Regions

end Mem
