/-
# Every block is in one place

The allocator keeps every block in exactly one place, whatever the threads do.

* `step_ok` — every step of a thread keeps the invariant;
* `sized_step` — the blocks that clients hold stay as large as the requests;
* `at_iff` — where a block is, as memory says, is what the history says;
* `allocator_exclusive` — the result for whole runs.
-/
import Ssr.MemSteps

open Interleaving Placement Chain

namespace Mem

/-! ## Every step -/

section Steps

variable {t : ℕ} {h h' : Heap} {pc pc' : Pc} {cmd : Cmd} {x : ℕ}

/-- A step that stores nothing. -/
theorem same_ok (hi : h.Inv) (hl : Loc t h pc)
    (hcursor : pc'.cursor = pc.cursor ∨ pc.cursor = none) (hunhooked : pc'.unhooked = pc.unhooked)
    (hlinking : pc'.linking = pc.linking) (hfrees : pc'.frees = pc.frees)
    (hknows : pc'.Knows t h) : StepOk t h h pc' :=
  ⟨hi, hl.same hcursor hunhooked hlinking hfrees hknows, fun u _ => Rely.refl u h⟩

/-- A step that stores into a block that a client holds, or that is being freed. -/
theorem store_ok {next' : ℕ → Option ℕ} {p₀ : Place} (hi : h.Inv) (hl : Loc t h pc)
    (hp : p₀ = .held ∨ p₀ = .freeing t) (hx : x ∈ h.blocks p₀)
    (hwithin : ∀ a, ¬ (x ≤ a ∧ a < x + 2 ^ (h.header (page x)).scale) → next' a = h.next a)
    (hcursor : pc'.cursor = pc.cursor) (hunhooked : pc'.unhooked = pc.unhooked)
    (hlinking : pc'.linking = pc.linking) (hfrees : pc'.frees = pc.frees)
    (hknows : pc'.Knows t { h with next := next' }) :
    StepOk t h { h with next := next' } pc' := by
  have hkeep : ∀ q, q ≠ p₀ → ∀ y ∈ h.blocks q, next' y = h.next y := by
    intro q hq y hy
    refine hwithin y (hi.notWithin hx hy ?_)
    rintro rfl
    exact hq (hi.exclusive.unique q p₀ x hy hx)
  obtain ⟨hinv, hrely, hqueue⟩ := store_guarantee hi hp hkeep
  exact ⟨hinv, hl.withNext hcursor hunhooked hlinking hfrees hqueue hknows, hrely⟩

/-- A store into the first word of a block that is being freed. -/
theorem setNext_ok {v : Option ℕ} (hi : h.Inv) (hl : Loc t h pc) (hx : pc.frees = some x)
    (hcursor : pc'.cursor = pc.cursor) (hunhooked : pc'.unhooked = pc.unhooked)
    (hlinking : pc'.linking = pc.linking) (hfrees : pc'.frees = pc.frees)
    (hknows : pc'.Knows t (h.setNext x v)) : StepOk t h (h.setNext x v) pc' := by
  have hmem : x ∈ h.blocks (.freeing t) := by
    rw [hl.freeing, hx]
    exact List.mem_singleton_self x
  refine store_ok hi hl (Or.inr rfl) hmem (fun a ha => Function.update_of_ne ?_ ..) hcursor
    hunhooked hlinking hfrees hknows
  rintro rfl
  exact ha ⟨le_rfl, Nat.lt_add_of_pos_right (Nat.two_pow_pos _)⟩

/-- The first block of a queue gets the link of the free list. -/
theorem hook_ok {n p b c s : ℕ} {old : Option ℕ} (hi : h.Inv)
    (hl : Loc t h (.inStore n p b c s old)) :
    StepOk t h (h.setNext b old) (.inPush n p b c s) := by
  obtain ⟨⟨rest, hq⟩, hscale, hlist⟩ := hl.knows
  have hb : b ∈ h.blocks (.queue t p) := by
    rw [hq]
    exact List.mem_cons_self
  have hkeep : ∀ q, q ≠ .queue t p → ∀ y ∈ h.blocks q, (h.setNext b old).next y = h.next y := by
    intro q hne y hy
    refine Function.update_of_ne ?_ ..
    rintro rfl
    exact hne (hi.exclusive.unique q (.queue t p) y hy hb)
  refine ⟨hi.withNext (fun o s' => hkeep _ (by exact nofun)) fun o q y hy => ?_,
    ⟨hl.cell, fun q hne b' rest' hq' => ?_, hl.tail, hl.freeing, ⟨rest, hq⟩, hscale, ?_⟩,
    fun u hu => ?_⟩
  · by_cases hoq : Place.queue o q = .queue t p
    · have hnd := hi.exclusive.nodup (.queue t p)
      rw [hoq, hq] at hy
      rw [hq] at hnd
      refine Function.update_of_ne ?_ ..
      rintro rfl
      exact (List.nodup_cons.mp hnd).1 hy
    · exact hkeep _ hoq y (List.mem_of_mem_tail hy)
  · have hqp : q ≠ p := fun heq => hne (congrArg some heq.symm)
    have hb' : b' ∈ h.blocks (.queue t q) := by
      rw [show h.blocks (.queue t q) = b' :: rest' from hq']
      exact List.mem_cons_self
    refine (hkeep _ (fun heq => hqp (Place.queue.inj heq).2) b' hb').trans ?_
    exact hl.first q nofun b' rest' hq'
  · exact (Function.update_self ..).trans hlist.symm
  · exact Rely.withNext (fun s' => hkeep _ (by exact nofun)) (hkeep _ (by exact nofun))
      fun q => hkeep _ fun heq => hu (Place.queue.inj heq).1

/-- The part that `get_new_region` keeps of a region twice as long. -/
theorem aligned_within (base size : ℕ) (hpos : 0 < size) :
    base < (base + size) / size * size ∧ (base + size) / size * size + size ≤ base + 2 * size
      ∧ (base + size) / size * size % size = 0 := by
  have hdiv := Nat.div_add_mod (base + size) size
  have hmod := Nat.mod_lt (base + size) hpos
  rw [mul_comm size] at hdiv
  exact ⟨by omega, by omega, Nat.mul_mod_left ..⟩

/-- Only calls, stores of clients and `mmap` have another input. -/
theorem step_cmd {r : Heap × Pc} (hstep : step t h pc cmd = some r) :
    (∃ b, pc = .returned b) ∨ (∃ n, pc = .mmap n) ∨ (∃ n, pc = .remap n) ∨ cmd = .resume := by
  cases pc with
  | returned b => exact Or.inl ⟨b, rfl⟩
  | mmap n => exact Or.inr (Or.inl ⟨n, rfl⟩)
  | remap n => exact Or.inr (Or.inr (Or.inl ⟨n, rfl⟩))
  | _ =>
    cases cmd with
    | resume => exact Or.inr (Or.inr (Or.inr rfl))
    | _ => cases hstep

/-- The steps at a call. -/
theorem returned_ok {b : Option ℕ} (hi : h.Inv) (hl : Loc t h (.returned b))
    (hstep : step t h (.returned b) cmd = some (h', pc')) : StepOk t h h' pc' := by
  cases cmd with
  | malloc n =>
    simp only [step] at hstep
    split_ifs at hstep
    · obtain ⟨rfl, rfl⟩ := hstep
      exact same_ok hi hl (Or.inl rfl) rfl rfl rfl trivial
    · obtain ⟨rfl, rfl⟩ := hstep
      exact same_ok hi hl (Or.inl rfl) rfl rfl rfl trivial
  | free x =>
    simp only [step] at hstep
    split_ifs at hstep with hc
    obtain ⟨rfl, rfl⟩ := hstep
    exact give_ok hi hl hc.2
  | write x a v =>
    simp only [step] at hstep
    split_ifs at hstep with hc
    obtain ⟨rfl, rfl⟩ := hstep
    refine store_ok hi hl (Or.inl rfl) hc.1 (fun a' ha' => Function.update_of_ne ?_ ..) rfl rfl rfl
      rfl trivial
    rintro rfl
    exact ha' hc.2
  | region base => cases hstep
  | resume => cases hstep

/-- The answer of `mmap`. -/
theorem mmap_ok {n s : ℕ} (hs : blockScale n = s) (hi : h.Inv) (hl : Loc t h (.mmap n))
    (hstep : step t h (.mmap n) cmd = some (h', pc')) : StepOk t h h' pc' := by
  have hlist : h.freeList t s = none := hs ▸ hl.knows
  cases cmd with
  | region base =>
    simp only [step, hs] at hstep
    split_ifs at hstep with hfresh hmod
    · obtain ⟨rfl, rfl⟩ := hstep
      exact claim_ok hs hi hl rfl rfl rfl rfl hlist ⟨hmod, hfresh.1⟩ hfresh.2
    · obtain ⟨rfl, rfl⟩ := hstep
      exact same_ok hi hl (Or.inl rfl) rfl rfl rfl hl.knows
  | _ => cases hstep

theorem remap_ok {n s : ℕ} (hs : blockScale n = s) (hi : h.Inv) (hl : Loc t h (.remap n))
    (hstep : step t h (.remap n) cmd = some (h', pc')) : StepOk t h h' pc' := by
  have hlist : h.freeList t s = none := hs ▸ hl.knows
  have hpos : 0 < regionSize s := lt_of_lt_of_le (Nat.two_pow_pos _) (pageSize_le s)
  cases cmd with
  | region base =>
    simp only [step, hs] at hstep
    split_ifs at hstep with hfresh
    obtain ⟨rfl, rfl⟩ := hstep
    obtain ⟨hlt, hle, hmod⟩ := aligned_within base (regionSize s) hpos
    refine claim_ok hs hi hl rfl rfl rfl rfl hlist ⟨hmod, (Nat.zero_le base).trans_lt hlt⟩
      fun r hr => ?_
    rcases hfresh.2 r hr with hlow | hhigh
    · exact Or.inl (hle.trans hlow)
    · exact Or.inr (hhigh.trans hlt.le)
  | _ => cases hstep

/-- The steps of a running call. -/
theorem resume_ok (hi : h.Inv) (hl : Loc t h pc)
    (hstep : step t h pc .resume = some (h', pc')) : StepOk t h h' pc' := by
  have hmem : ∀ x, pc.frees = some x → x ∈ h.blocks (.freeing t) := by
    intro x hx
    rw [hl.freeing, hx]
    exact List.mem_singleton_self x
  cases pc with
  | returned b => cases hstep
  | mmap n => cases hstep
  | remap n => cases hstep
  | freeScale x =>
    obtain ⟨rfl, rfl⟩ := hstep
    exact same_ok hi hl (Or.inl rfl) rfl rfl rfl rfl
  | freeTrap x s =>
    obtain ⟨rfl, rfl⟩ := hstep
    refine store_ok hi hl (Or.inr rfl) (hmem x rfl) (fun a ha => if_neg ?_) rfl rfl rfl rfl hl.knows
    rwa [show (h.header (page x)).scale = s from hl.knows] at ha
  | freeOwner x s =>
    simp only [step] at hstep
    split_ifs at hstep with howner
    · obtain ⟨rfl, rfl⟩ := hstep
      refine same_ok hi hl (Or.inl rfl) rfl rfl rfl ?_
      show h.header (page x) = ⟨t, s⟩
      rw [← howner, ← show (h.header (page x)).scale = s from hl.knows]
    · obtain ⟨rfl, rfl⟩ := hstep
      exact same_ok hi hl (Or.inl rfl) rfl rfl rfl howner
  | freeHead x s =>
    obtain ⟨rfl, rfl⟩ := hstep
    exact same_ok hi hl (Or.inl rfl) rfl rfl rfl ⟨hl.knows, rfl⟩
  | freeNext x s old =>
    obtain ⟨rfl, rfl⟩ := hstep
    refine setNext_ok hi hl rfl rfl rfl rfl rfl ⟨hl.knows.1, ?_⟩
    exact (Function.update_self ..).trans hl.knows.2.symm
  | freePush x s =>
    obtain ⟨rfl, rfl⟩ := hstep
    exact push_ok hi hl
  | freeOther x =>
    obtain ⟨rfl, rfl⟩ := hstep
    exact same_ok hi hl (Or.inl rfl) rfl rfl rfl ⟨rfl, hl.knows⟩
  | freeNull x o =>
    obtain ⟨rfl, rfl⟩ := hstep
    exact setNext_ok hi hl rfl rfl rfl rfl rfl ⟨hl.knows.1, hl.knows.2, Function.update_self ..⟩
  | freeTail x o =>
    obtain ⟨rfl, rfl⟩ := hstep
    exact same_ok hi hl (Or.inl rfl) rfl rfl rfl ⟨hl.knows.1, hl.knows.2.1, hl.knows.2.2, rfl⟩
  | freeLink x o tail =>
    obtain ⟨rfl, rfl⟩ := hstep
    exact send_ok hi hl
  | freeTo x o =>
    obtain ⟨rfl, rfl⟩ := hstep
    exact to_ok hi hl
  | popHead n again =>
    obtain ⟨s, hs⟩ : ∃ s, blockScale n = s := ⟨_, rfl⟩
    simp only [step, hs] at hstep
    split at hstep
    next b hb =>
      obtain ⟨rfl, rfl⟩ := hstep
      refine same_ok hi hl (Or.inl rfl) rfl rfl rfl ?_
      show h.freeList t (blockScale n) = some b
      rw [hs, hb]
    next hnone =>
      split_ifs at hstep
      · obtain ⟨rfl, rfl⟩ := hstep
        refine same_ok hi hl (Or.inl rfl) rfl rfl rfl ?_
        show h.freeList t (blockScale n) = none
        rw [hs, hnone]
      · obtain ⟨rfl, rfl⟩ := hstep
        obtain ⟨hcursor, hunhooked, hlinking, hfrees, hknows⟩ :=
          cursor_incoming (t := t) (h := h) n 0
        exact same_ok hi hl (Or.inl hcursor) hunhooked hlinking hfrees hknows
  | popNext n b =>
    obtain ⟨rfl, rfl⟩ := hstep
    exact same_ok hi hl (Or.inl rfl) rfl rfl rfl ⟨hl.knows, rfl⟩
  | popStore n b next =>
    obtain ⟨s, hs⟩ : ∃ s, blockScale n = s := ⟨_, rfl⟩
    simp only [step, hs] at hstep
    obtain ⟨rfl, rfl⟩ := hstep
    exact pop_ok hi hl hs
  | inHead n p =>
    simp only [step] at hstep
    split at hstep
    next hnone =>
      obtain ⟨rfl, rfl⟩ := hstep
      obtain ⟨hcursor, hunhooked, hlinking, hfrees, hknows⟩ :=
        cursor_incoming (t := t) (h := h) n (p + 1)
      exact same_ok hi hl (Or.inl hcursor) hunhooked hlinking hfrees hknows
    next b hb =>
      obtain ⟨rfl, rfl⟩ := hstep
      exact same_ok hi hl (Or.inr rfl) rfl rfl rfl ((hl.cell p fun h => by cases h).symm.trans hb)
  | inNext n p b =>
    obtain ⟨rest, hq⟩ := List.head?_eq_some_iff.mp (show (h.blocks (.queue t p)).head? = some b
      from hl.knows)
    have hnext := hl.first p (fun h => by cases h) b rest hq
    simp only [step] at hstep
    split at hstep
    next =>
      obtain ⟨rfl, rfl⟩ := hstep
      exact same_ok hi hl (Or.inl rfl) rfl rfl rfl hl.knows
    next c hc =>
      obtain ⟨rfl, rfl⟩ := hstep
      refine same_ok hi hl (Or.inl rfl) rfl rfl rfl ?_
      rw [hc] at hnext
      obtain ⟨rest', rfl⟩ := List.head?_eq_some_iff.mp hnext.symm
      exact ⟨rest', hq⟩
  | inScale n p b c =>
    obtain ⟨rfl, rfl⟩ := hstep
    exact same_ok hi hl (Or.inl rfl) rfl rfl rfl ⟨hl.knows, rfl⟩
  | inLoad n p b c s =>
    obtain ⟨rfl, rfl⟩ := hstep
    exact same_ok hi hl (Or.inl rfl) rfl rfl rfl ⟨hl.knows.1, hl.knows.2, rfl⟩
  | inStore n p b c s old =>
    obtain ⟨rfl, rfl⟩ := hstep
    exact hook_ok hi hl
  | inPush n p b c s =>
    obtain ⟨rfl, rfl⟩ := hstep
    exact take_ok hi hl
  | inDone n p b =>
    obtain ⟨rfl, rfl⟩ := hstep
    exact done_ok hi hl
  | header n base =>
    obtain ⟨s, hs⟩ : ∃ s, blockScale n = s := ⟨_, rfl⟩
    simp only [step, hs] at hstep
    obtain ⟨rfl, rfl⟩ := hstep
    exact setHeader_ok hs hi hl
  | carve n base =>
    obtain ⟨s, hs⟩ : ∃ s, blockScale n = s := ⟨_, rfl⟩
    simp only [step, hs] at hstep
    obtain ⟨rfl, rfl⟩ := hstep
    exact carve_ok hs hi hl

/-- Every step does what it must. -/
theorem step_ok (hi : h.Inv) (hl : Loc t h pc) (hstep : step t h pc cmd = some (h', pc')) :
    StepOk t h h' pc' := by
  rcases step_cmd hstep with ⟨b, rfl⟩ | ⟨n, rfl⟩ | ⟨n, rfl⟩ | rfl
  · exact returned_ok hi hl hstep
  · exact mmap_ok rfl hi hl hstep
  · exact remap_ok rfl hi hl hstep
  · exact resume_ok hi hl hstep

end Steps

/-! ## The sizes of blocks -/

/-- The request of the running call of `nbd_malloc`. -/
def Pc.request : Pc → Option ℕ
  | .popHead n _ | .popNext n _ | .popStore n _ _ | .inHead n _ | .inNext n _ _ | .inScale n _ _ _
  | .inLoad n _ _ _ _ | .inStore n _ _ _ _ _ | .inPush n _ _ _ _ | .inDone n _ _ | .mmap n
  | .remap n | .header n _ | .carve n _ => some n
  | _ => none

/-- The blocks that clients hold are as large as the requests. -/
def Heap.Sized (h : Heap) : Prop :=
  ∀ x ∈ h.blocks .held, h.asked x ≤ 2 ^ (h.header (page x)).scale

/-- A block of the scale of a request is large enough. -/
theorem le_blockScale {n : ℕ} (hn : n < 2 ^ 64) : n ≤ 2 ^ blockScale n := by
  rcases Nat.eq_zero_or_pos n with rfl | hpos
  · exact Nat.zero_le _
  · have hpred : (n + (2 ^ 64 - 1)) % 2 ^ 64 = n - 1 := by omega
    have hlt : n - 1 < 2 ^ Nat.size (n - 1) := Nat.lt_size_self _
    have hle : 2 ^ Nat.size (n - 1) ≤ 2 ^ blockScale n := by
      refine Nat.pow_le_pow_right Nat.two_pos ?_
      rw [blockScale, hpred]
      exact le_max_right _ _
    omega

section Sizes

variable {t : ℕ} {h h' : Heap} {pc pc' : Pc} {cmd : Cmd} {x : ℕ}

theorem request_incoming (n p : ℕ) : (incoming n p).request = some n := by
  unfold incoming
  split_ifs
  · rfl
  · rfl

/-- A request is a `size_t`. -/
theorem request_step (hstep : step t h pc cmd = some (h', pc'))
    (hn : ∀ n ∈ pc.request, n < 2 ^ 64) : ∀ n ∈ pc'.request, n < 2 ^ 64 := by
  have hincoming : ∀ n p, n < 2 ^ 64 → ∀ m ∈ (incoming n p).request, m < 2 ^ 64 := by
    intro n p hlt m hm
    rw [request_incoming] at hm
    exact Option.some.inj hm ▸ hlt
  rcases step_cmd hstep with ⟨b, rfl⟩ | ⟨n, rfl⟩ | ⟨n, rfl⟩ | rfl
  · cases cmd with
    | malloc n =>
      simp only [step] at hstep
      split_ifs at hstep with hc
      · obtain ⟨rfl, rfl⟩ := hstep
        rintro _ ⟨⟩
      · obtain ⟨rfl, rfl⟩ := hstep
        rintro m ⟨rfl⟩
        exact hc.2.1
    | free x =>
      simp only [step] at hstep
      split_ifs at hstep
      obtain ⟨rfl, rfl⟩ := hstep
      rintro _ ⟨⟩
    | write x a v =>
      simp only [step] at hstep
      split_ifs at hstep
      obtain ⟨rfl, rfl⟩ := hstep
      rintro _ ⟨⟩
    | region base => cases hstep
    | resume => cases hstep
  · cases cmd with
    | region base =>
      simp only [step] at hstep
      split_ifs at hstep
      · obtain ⟨rfl, rfl⟩ := hstep
        exact hn
      · obtain ⟨rfl, rfl⟩ := hstep
        exact hn
    | _ => cases hstep
  · cases cmd with
    | region base =>
      simp only [step] at hstep
      split_ifs at hstep
      obtain ⟨rfl, rfl⟩ := hstep
      exact hn
    | _ => cases hstep
  · cases pc with
    | returned b => cases hstep
    | mmap n => cases hstep
    | remap n => cases hstep
    | freeOwner x s =>
      simp only [step] at hstep
      split_ifs at hstep
      · obtain ⟨rfl, rfl⟩ := hstep
        rintro _ ⟨⟩
      · obtain ⟨rfl, rfl⟩ := hstep
        rintro _ ⟨⟩
    | popHead n again =>
      simp only [step] at hstep
      split at hstep
      · obtain ⟨rfl, rfl⟩ := hstep
        exact hn
      · split_ifs at hstep
        · obtain ⟨rfl, rfl⟩ := hstep
          exact hn
        · obtain ⟨rfl, rfl⟩ := hstep
          exact hincoming n 0 (hn n rfl)
    | inHead n p =>
      simp only [step] at hstep
      split at hstep
      · obtain ⟨rfl, rfl⟩ := hstep
        exact hincoming n (p + 1) (hn n rfl)
      · obtain ⟨rfl, rfl⟩ := hstep
        exact hn
    | inNext n p b =>
      simp only [step] at hstep
      split at hstep
      · obtain ⟨rfl, rfl⟩ := hstep
        exact hn
      · obtain ⟨rfl, rfl⟩ := hstep
        exact hn
    | inDone n p b =>
      obtain ⟨rfl, rfl⟩ := hstep
      exact hincoming n (p + 1) (hn n rfl)
    | popStore n b next =>
      obtain ⟨rfl, rfl⟩ := hstep
      rintro _ ⟨⟩
    | header n base =>
      obtain ⟨s, hs⟩ : ∃ s, blockScale n = s := ⟨_, rfl⟩
      simp only [step, hs] at hstep
      obtain ⟨rfl, rfl⟩ := hstep
      exact hn
    | carve n base =>
      obtain ⟨s, hs⟩ : ∃ s, blockScale n = s := ⟨_, rfl⟩
      simp only [step, hs] at hstep
      obtain ⟨rfl, rfl⟩ := hstep
      rintro _ ⟨⟩
    | _ =>
      obtain ⟨rfl, rfl⟩ := hstep
      exact hn

theorem Heap.Sized.of_eq (hs : h.Sized) (hheld : h'.blocks .held = h.blocks .held)
    (hasked : h'.asked = h.asked) (hheader : h'.header = h.header) : h'.Sized := by
  intro x hx
  rw [hasked, hheader]
  rw [hheld] at hx
  exact hs x hx

/-- A block that is large enough is given out. -/
theorem Heap.Sized.ask {n : ℕ} (hs : h.Sized) (hheld : h'.blocks .held = x :: h.blocks .held)
    (hasked : h'.asked = Function.update h.asked x n) (hheader : h'.header = h.header)
    (hn : n ≤ 2 ^ (h.header (page x)).scale) : h'.Sized := by
  intro y hy
  rw [hasked, hheader]
  by_cases hyx : y = x
  · rw [hyx, Function.update_self]
    exact hn
  · rw [hheld] at hy
    rw [Function.update_of_ne hyx]
    exact hs y ((List.mem_cons.mp hy).resolve_left hyx)

/-- Which steps of a running call change the blocks that clients hold, or a header. -/
theorem resume_held (hstep : step t h pc .resume = some (h', pc'))
    (hpop : ∀ n b next, pc ≠ .popStore n b next) (hheader : ∀ n base, pc ≠ .header n base)
    (hcarve : ∀ n base, pc ≠ .carve n base) :
    h'.blocks .held = h.blocks .held ∧ h'.asked = h.asked ∧ h'.header = h.header := by
  cases pc with
  | returned b => cases hstep
  | mmap n => cases hstep
  | remap n => cases hstep
  | popStore n b next => exact absurd rfl (hpop n b next)
  | header n base => exact absurd rfl (hheader n base)
  | carve n base => exact absurd rfl (hcarve n base)
  | freeOwner x s =>
    simp only [step] at hstep
    split_ifs at hstep
    · obtain ⟨rfl, rfl⟩ := hstep
      exact ⟨rfl, rfl, rfl⟩
    · obtain ⟨rfl, rfl⟩ := hstep
      exact ⟨rfl, rfl, rfl⟩
  | popHead n again =>
    simp only [step] at hstep
    split at hstep
    · obtain ⟨rfl, rfl⟩ := hstep
      exact ⟨rfl, rfl, rfl⟩
    · split_ifs at hstep
      · obtain ⟨rfl, rfl⟩ := hstep
        exact ⟨rfl, rfl, rfl⟩
      · obtain ⟨rfl, rfl⟩ := hstep
        exact ⟨rfl, rfl, rfl⟩
  | inHead n p =>
    simp only [step] at hstep
    split at hstep
    · obtain ⟨rfl, rfl⟩ := hstep
      exact ⟨rfl, rfl, rfl⟩
    · obtain ⟨rfl, rfl⟩ := hstep
      exact ⟨rfl, rfl, rfl⟩
  | inNext n p b =>
    simp only [step] at hstep
    split at hstep
    · obtain ⟨rfl, rfl⟩ := hstep
      exact ⟨rfl, rfl, rfl⟩
    · obtain ⟨rfl, rfl⟩ := hstep
      exact ⟨rfl, rfl, rfl⟩
  | freePush x s =>
    obtain ⟨rfl, rfl⟩ := hstep
    exact ⟨toFront_of_ne (by simp) (by simp), rfl, rfl⟩
  | inPush n p b c s =>
    obtain ⟨rfl, rfl⟩ := hstep
    exact ⟨toFront_of_ne (by simp) (by simp), rfl, rfl⟩
  | freeLink x o tail =>
    obtain ⟨rfl, rfl⟩ := hstep
    refine ⟨(toBack_of_ne (by simp) (by simp)).trans ?_, ?_⟩
    · cases tail with
      | cell => rfl
      | block y => rfl
    · cases tail with
      | cell => exact ⟨rfl, rfl⟩
      | block y => exact ⟨rfl, rfl⟩
  | _ =>
    obtain ⟨rfl, rfl⟩ := hstep
    exact ⟨rfl, rfl, rfl⟩

/-- The blocks stay large enough. -/
theorem sized_step (hi : h.Inv) (hl : Loc t h pc) (hs : h.Sized)
    (hn : ∀ n ∈ pc.request, n < 2 ^ 64) (hstep : step t h pc cmd = some (h', pc')) : h'.Sized := by
  rcases step_cmd hstep with ⟨b, rfl⟩ | ⟨n, rfl⟩ | ⟨n, rfl⟩ | rfl
  · cases cmd with
    | malloc n =>
      simp only [step] at hstep
      split_ifs at hstep
      · obtain ⟨rfl, rfl⟩ := hstep
        exact hs
      · obtain ⟨rfl, rfl⟩ := hstep
        exact hs
    | free x =>
      simp only [step] at hstep
      split_ifs at hstep
      obtain ⟨rfl, rfl⟩ := hstep
      intro y hy
      have hfrom : (h.toFront .held (.freeing t) x).blocks .held = (h.blocks .held).erase x :=
        toFront_from (by simp)
      rw [hfrom] at hy
      exact hs y (List.mem_of_mem_erase hy)
    | write x a v =>
      simp only [step] at hstep
      split_ifs at hstep
      obtain ⟨rfl, rfl⟩ := hstep
      exact hs
    | region base => cases hstep
    | resume => cases hstep
  · cases cmd with
    | region base =>
      simp only [step] at hstep
      split_ifs at hstep
      · obtain ⟨rfl, rfl⟩ := hstep
        exact hs
      · obtain ⟨rfl, rfl⟩ := hstep
        exact hs
    | _ => cases hstep
  · cases cmd with
    | region base =>
      simp only [step] at hstep
      split_ifs at hstep
      obtain ⟨rfl, rfl⟩ := hstep
      exact hs
    | _ => cases hstep
  · by_cases hpop : ∃ n b next, pc = .popStore n b next
    · obtain ⟨n, b, next, rfl⟩ := hpop
      have hle := le_blockScale (hn n rfl)
      have hhead := hl.knows.1
      obtain ⟨s, hsc⟩ : ∃ s, blockScale n = s := ⟨_, rfl⟩
      simp only [step, hsc] at hstep
      rw [hsc] at hle hhead
      obtain ⟨rfl, rfl⟩ := hstep
      have hb : b ∈ h.blocks (.free t s) := (hi.free t s).mem_iff.mpr ⟨b, hhead, Reach.refl b⟩
      have hheld : ((h.setFree t s next).toFront (.free t s) .held b).blocks .held
          = b :: h.blocks .held := toFront_to
      refine hs.ask hheld rfl rfl ?_
      rw [hi.freeHome t s b hb]
      exact hle
    · by_cases hheader : ∃ n base, pc = .header n base
      · obtain ⟨n, base, rfl⟩ := hheader
        obtain ⟨-, hregion, hnew⟩ := hl.knows
        obtain ⟨s, hsc⟩ : ∃ s, blockScale n = s := ⟨_, rfl⟩
        simp only [step, hsc] at hstep
        rw [hsc] at hregion hnew
        obtain ⟨rfl, rfl⟩ := hstep
        intro y hy
        refine (hs y hy).trans (le_of_eq ?_)
        exact congrArg (fun g : Header => 2 ^ g.scale)
          (Function.update_of_ne (hi.page_ne hregion hnew hy) ..).symm
      · by_cases hcarve : ∃ n base, pc = .carve n base
        · obtain ⟨n, base, rfl⟩ := hcarve
          have hle := le_blockScale (hn n rfl)
          have hhome := hl.knows.2.2.2
          obtain ⟨s, hsc⟩ : ∃ s, blockScale n = s := ⟨_, rfl⟩
          simp only [step, hsc] at hstep
          rw [hsc] at hle hhome
          obtain ⟨rfl, rfl⟩ := hstep
          refine hs.ask carve_held rfl rfl ?_
          show n ≤ 2 ^ (h.header (page base)).scale
          rw [hhome]
          exact hle
        · obtain ⟨hheld, hasked, hheaders⟩ := resume_held hstep
            (fun n b next heq => hpop ⟨n, b, next, heq⟩) (fun n base heq => hheader ⟨n, base, heq⟩)
            fun n base heq => hcarve ⟨n, base, heq⟩
          exact hs.of_eq hheld hasked hheaders

end Sizes

/-! ## Whole runs -/

/-- The allocator as a rely-guarantee system. -/
theorem relyGuarantee : RelyGuarantee step (fun _ _ _ _ => True) (fun h => h.Inv ∧ h.Sized)
    (fun t h pc => Loc t h pc ∧ ∀ n ∈ pc.request, n < 2 ^ 64) Rely where
  guarantee := by
    rintro t h pc cmd h' pc' ⟨hi, hs⟩ ⟨hl, hn⟩ - hstep
    obtain ⟨hi', hl', hrely⟩ := step_ok hi hl hstep
    exact ⟨⟨hi', sized_step hi hl hs hn hstep⟩, ⟨hl', request_step hstep hn⟩, hrely⟩
  stable := by
    rintro u h h' pc ⟨hi, -⟩ hr ⟨hl, hn⟩
    exact ⟨hl.stable hi hr, hn⟩

theorem init_holds : init.Holds (fun h => h.Inv ∧ h.Sized)
    (fun t h pc => Loc t h pc ∧ ∀ n ∈ pc.request, n < 2 ^ 64) := by
  refine ⟨⟨⟨exclusive_nil, fun x => ?_, nofun, nofun, nofun, nofun, fun _ _ => rfl,
    fun _ _ => nofun, fun _ _ => rfl, fun _ _ => nofun⟩, nofun⟩, fun t => ⟨⟨fun _ _ => rfl,
    fun _ _ _ _ => nofun, fun _ _ => rfl, rfl, trivial⟩, nofun⟩⟩
  constructor
  · rintro ⟨p, hp⟩
    cases hp
  · rintro ⟨r, hr, -⟩
    cases hr

section Where

variable {c : Conf Heap Pc} {t o p x : ℕ} {h : Heap}

/-- The block that is looked at is first on its queue. -/
theorem Pc.Knows.head_cursor {pc : Pc} {q b : ℕ} (hk : pc.Knows t h)
    (hc : pc.cursor = some (q, b)) : (h.blocks (.queue t q)).head? = some b := by
  have htwo : ∀ {q b c : ℕ}, (∃ rest, h.blocks (.queue t q) = b :: c :: rest) →
      (h.blocks (.queue t q)).head? = some b := by
    rintro q b c ⟨rest, hq⟩
    rw [hq]
    rfl
  cases pc with
  | inNext n p b => cases hc; exact hk
  | inDone n p b => cases hc; exact hk
  | inScale n p b c => cases hc; exact htwo hk
  | inLoad n p b c s => cases hc; exact htwo hk.1
  | inStore n p b c s old => cases hc; exact htwo hk.1
  | inPush n p b c s => cases hc; exact htwo hk.1
  | _ => cases hc

theorem Pc.Knows.cons_unhooked {pc : Pc} {q c : ℕ} (hk : pc.Knows t h)
    (hc : pc.unhooked = some (q, c)) :
    ∃ b rest, pc.cursor = some (q, b) ∧ h.blocks (.queue t q) = b :: c :: rest := by
  cases pc with
  | inPush n p b c s =>
    cases hc
    obtain ⟨rest, hq⟩ := hk.1
    exact ⟨b, rest, rfl, hq⟩
  | _ => cases hc

/-- The blocks on a queue are those that are reached from the first one. -/
theorem Heap.Inv.queue_reach (hi : h.Inv) {b : ℕ} {rest : List ℕ}
    (hq : h.blocks (.queue o p) = b :: rest) (hfirst : h.next b = rest.head?) :
    x ∈ h.blocks (.queue o p) ↔ Reach h.next b x := by
  have hspells := hi.queue o p
  rw [hq] at hspells
  have hall : Spells h.next (some b) (b :: rest) := ⟨rfl, hfirst ▸ hspells⟩
  rw [hq, hall.mem_iff]
  simp

/-- The queues are where memory says that they are. -/
theorem onQueue_iff (hi : c.shared.Inv) (hl : Loc o c.shared (c.thread o)) :
    OnQueue c o p x ↔ x ∈ c.shared.blocks (.queue o p) := by
  have hwhole : (c.thread o).cursor.map (·.1) ≠ some p →
      (c.thread o).unhooked.map (·.1) ≠ some p →
      ((∃ b, c.shared.blocksFrom o p = some b ∧ Reach c.shared.next b x)
        ↔ x ∈ c.shared.blocks (.queue o p)) := by
    intro hcursor hunhooked
    rw [hl.cell p hcursor]
    rcases hq : c.shared.blocks (.queue o p) with _ | ⟨b, rest⟩
    · simp
    · rw [← hq, hi.queue_reach hq (hl.first p hunhooked b rest hq), hq]
      simp
  unfold OnQueue
  rcases hcursor : (c.thread o).cursor with _ | ⟨q, b⟩
  · have hunhooked : (c.thread o).unhooked.map (·.1) ≠ some p := by
      rcases hu : (c.thread o).unhooked with _ | ⟨q, d⟩
      · exact nofun
      · obtain ⟨b, rest, hb, -⟩ := hl.knows.cons_unhooked hu
        rw [hcursor] at hb
        cases hb
    exact hwhole (by rw [hcursor]; exact nofun) hunhooked
  · show (if q = p then _ else _) ↔ _
    have hhead := hl.knows.head_cursor hcursor
    split_ifs with hqp
    · subst hqp
      rcases hu : (c.thread o).unhooked with _ | ⟨q', d⟩
      · obtain ⟨rest, hq⟩ := List.head?_eq_some_iff.mp hhead
        exact (hi.queue_reach hq (hl.first q (by rw [hu]; exact nofun) b rest hq)).symm
      · obtain ⟨b', rest, hb, hq⟩ := hl.knows.cons_unhooked hu
        obtain ⟨rfl, rfl⟩ := Prod.mk.inj (Option.some.inj (hcursor.symm.trans hb))
        have hspells := hi.queue o q
        rw [hq] at hspells
        have hrest : x ∈ d :: rest ↔ Reach c.shared.next d x := by
          rw [Spells.mem_iff (show Spells c.shared.next (some d) (d :: rest) from hspells)]
          simp
        rw [hq, List.mem_cons, hrest]
    · have hunhooked : (c.thread o).unhooked.map (·.1) ≠ some p := by
        rcases hu : (c.thread o).unhooked with _ | ⟨q', d⟩
        · exact nofun
        · obtain ⟨b', rest, hb, -⟩ := hl.knows.cons_unhooked hu
          obtain ⟨rfl, -⟩ := Prod.mk.inj (Option.some.inj (hcursor.symm.trans hb))
          exact fun heq => hqp (Option.some.inj heq)
      exact hwhole (by rw [hcursor]; exact fun heq => hqp (Option.some.inj heq)) hunhooked

/-- The history of the places is what memory says. -/
theorem at_iff (hi : c.shared.Inv) (hl : ∀ t, Loc t c.shared (c.thread t)) (q : Place) :
    At c q x ↔ x ∈ c.shared.blocks q := by
  cases q with
  | held => exact Iff.rfl
  | freeing t =>
    rw [(hl t).freeing, Option.mem_toList]
    exact Iff.rfl
  | free o s => exact (hi.free o s).mem_iff.symm
  | queue o p => exact onQueue_iff hi (hl o)

end Where

/-- **Exclusivity.**  In every state that a run reaches, every block of a region that was
broken up is in exactly one place: with a client, once; in one call of `nbd_free`; on the free
list of the owner of its page, at the scale of the page; or on one queue of the owner of its
page.  So two blocks that clients hold do not overlap, and a block that was given out for a
request is as large as the request. -/
theorem allocator_exclusive (es : List (ℕ × Cmd)) (c : Conf Heap Pc)
    (hrun : run sys init es = some c) :
    (∀ r ∈ c.shared.carved, ∀ x ∈ r.blocks, ∃! q, At c q x)
      ∧ (c.shared.blocks .held).Nodup
      ∧ (∀ o s x, At c (.free o s) x → c.shared.header (page x) = ⟨o, s⟩)
      ∧ (∀ o p x, At c (.queue o p) x → (c.shared.header (page x)).owner = o)
      ∧ (∀ x ∈ c.shared.blocks .held, ∀ y ∈ c.shared.blocks .held, x ≠ y →
          x + 2 ^ (c.shared.header (page x)).scale ≤ y
            ∨ y + 2 ^ (c.shared.header (page y)).scale ≤ x)
      ∧ ∀ x ∈ c.shared.blocks .held, c.shared.asked x ≤ 2 ^ (c.shared.header (page x)).scale := by
  obtain ⟨⟨hi, hs⟩, hl⟩ := relyGuarantee.holds_run init_holds
    (stepsMeet_of_forall (fun _ _ => trivial) init es) hrun
  have hat : ∀ q x, At c q x ↔ x ∈ c.shared.blocks q :=
    fun q x => at_iff hi (fun t => (hl t).1) q
  refine ⟨fun r hr x hx => ?_, hi.exclusive.nodup .held, fun o s x hx => ?_, fun o p x hx => ?_,
    fun x hx y hy hne => hi.blocks_apart hx hy hne, hs⟩
  · obtain ⟨q, hq⟩ := (hi.carved x).mpr ⟨r, hr, hx⟩
    refine ⟨q, (hat q x).mpr hq, fun q' hq' => ?_⟩
    exact hi.exclusive.unique q' q x ((hat q' x).mp hq') hq
  · exact hi.freeHome o s x ((hat _ x).mp hx)
  · exact (hi.queueHome o p x ((hat _ x).mp hx)).1

/-- Thread 1 breaks up a region into two blocks, and thread 2 frees both; then thread 1 gets the
first one back from the queue. -/
def outAndBack : List (ℕ × Cmd) :=
  (1, Cmd.malloc (2 ^ 20)) :: List.replicate 34 (1, Cmd.resume)
    ++ (1, Cmd.region (2 ^ 21)) :: List.replicate 2 (1, Cmd.resume)
    ++ (1, Cmd.malloc (2 ^ 20)) :: List.replicate 3 (1, Cmd.resume)
    ++ (2, Cmd.free (2 ^ 21)) :: List.replicate 8 (2, Cmd.resume)
    ++ (2, Cmd.free (2 ^ 21 + 2 ^ 20)) :: List.replicate 8 (2, Cmd.resume)
    ++ (1, Cmd.malloc (2 ^ 20)) :: List.replicate 43 (1, Cmd.resume)

theorem allocator_exclusive_outAndBack : ∃ c, run sys init outAndBack = some c
    ∧ c.shared.carved = [⟨2 ^ 21, 20, 1⟩] ∧ c.thread 1 = .returned (some (2 ^ 21))
    ∧ c.shared.blocks (.queue 1 2) = [2 ^ 21 + 2 ^ 20]
    ∧ (∀ r ∈ c.shared.carved, ∀ x ∈ r.blocks, ∃! q, At c q x)
    ∧ c.shared.asked (2 ^ 21) ≤ 2 ^ (c.shared.header (page (2 ^ 21))).scale := by
  have hends : (run sys init outAndBack).map (fun c => (c.shared.carved, c.thread 1,
      c.shared.blocks (.queue 1 2), c.shared.blocks .held))
      = some ([⟨2 ^ 21, 20, 1⟩], .returned (some (2 ^ 21)), [2 ^ 21 + 2 ^ 20], [2 ^ 21]) := by
    decide +kernel
  obtain ⟨c, hrun, hc⟩ := Option.map_eq_some_iff.mp hends
  obtain ⟨hcarved, hthread, hqueue, hheld⟩ : _ ∧ _ ∧ _ ∧ _ := by
    simpa only [Prod.mk.injEq] using hc
  obtain ⟨hplaces, -, -, -, -, hsize⟩ := allocator_exclusive outAndBack c hrun
  exact ⟨c, hrun, hcarved, hthread, hqueue, hplaces,
    hsize (2 ^ 21) (by rw [hheld]; exact List.mem_singleton_self _)⟩

end Mem
