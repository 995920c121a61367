/-
# Hazard pointers (`src/runtime/hazard.c`)

Every call of `haz_defer_free`, `haz_set`, `haz_register_dynamic` and
`haz_unregister_dynamic` is one step.  The threads are those that `nbd_thread_init`
admits, with the numbers from 1 to `MAX_NUM_THREADS`.

* A pointer is a number, and `NULL` is `0`; `mem` is what the locations hold that may be
  registered.
* `haz_local_` is a function on all numbers: what lies behind the end of the array is some
  memory too, but no loop of the source goes there.
* What `nbd_malloc` returns holds whatever was there before (`junk`); `memcpy` counts bytes.
* `while` and the recursion of `haz_defer_free` run on fuel.
* `registered` (the locations that a thread has registered and not unregistered) and
  `freed` (the arguments of the calls of the free functions) are history.
-/
import Ssr.Interleaving

open Interleaving

namespace Hazard

/-! ## The state -/

/-- `MAX_NUM_THREADS`. -/
def maxNumThreads : ℕ := 32

/-- `STATIC_HAZ_PER_THREAD`. -/
def staticHazPerThread : ℕ := 2

/-- `pending_t`; a free function is a number too. -/
structure Pending where
  ptr : ℕ
  free : ℕ
  deriving DecidableEq, Repr

/-- `haz_local_t`. -/
structure HazLocal where
  pending : ℕ → Pending
  pendingSize : ℕ
  pendingCount : ℕ
  staticHaz : ℕ → ℕ
  dynamic : ℕ → ℕ
  dynamicSize : ℕ
  dynamicCount : ℕ

/-- The state of the program. -/
structure State where
  maxThreadId : ℕ
  hazLocal : ℕ → HazLocal
  mem : ℕ → ℕ
  registered : ℕ → List ℕ
  freed : List ℕ

/-- Before any thread is there; `haz_local_` is zero. -/
def init : State where
  maxThreadId := 0
  hazLocal := fun _ =>
    { pending := fun _ => ⟨0, 0⟩
      pendingSize := 0
      pendingCount := 0
      staticHaz := fun _ => 0
      dynamic := fun _ => 0
      dynamicSize := 0
      dynamicCount := 0 }
  mem := fun _ => 0
  registered := fun _ => []
  freed := []

/-- Replace the data of thread `t`. -/
def State.setLocal (s : State) (t : ℕ) (l : HazLocal) : State :=
  { s with hazLocal := Function.update s.hazLocal t l }

/-! ## `haz_defer_free` -/

/-- `resize_pending`: `memcpy` copies `pending_size` bytes, and an entry has 16. -/
def resizePending (l : HazLocal) (junk : ℕ → Pending) : HazLocal :=
  { l with
    pending := fun k => if 16 * (k + 1) ≤ l.pendingSize then l.pending k else junk k
    pendingSize := l.pendingSize * 2 }

/-- The hazards of one thread. -/
def HazLocal.hazards (mem : ℕ → ℕ) (h : HazLocal) : List ℕ :=
  ((List.range staticHazPerThread).map h.staticHaz).filter (· ≠ 0)
    ++ ((List.range h.dynamicCount).map h.dynamic).filterMap fun loc =>
      if loc ≠ 0 ∧ mem loc ≠ 0 then some (mem loc) else none

/-- What the scan of `haz_defer_free` finds. -/
def State.hazards (s : State) : List ℕ :=
  (List.range maxNumThreads).flatMap fun i => (s.hazLocal i).hazards s.mem

/-- The entries of the pending table. -/
def HazLocal.entries (l : HazLocal) : List Pending := (List.range l.pendingCount).map l.pending

/-- The entries that are hazards stay. -/
def HazLocal.conflicts (l : HazLocal) (hazards : List ℕ) : List Pending :=
  l.entries.filter (·.ptr ∈ hazards)

/-- One pass over the pending table: hazards stay, the others are freed. -/
def State.sweep (s : State) (t : ℕ) : State :=
  let l := s.hazLocal t
  let kept := l.conflicts s.hazards
  { s.setLocal t
      { l with pending := fun k => kept.getD k (l.pending k), pendingCount := kept.length } with
    freed := s.freed ++ (l.entries.filter (·.ptr ∉ s.hazards)).map (·.ptr) }

/-- The end of `haz_defer_free`. -/
def HazLocal.append (l : HazLocal) (d f : ℕ) : HazLocal :=
  { l with
    pending := Function.update l.pending l.pendingCount ⟨d, f⟩
    pendingCount := l.pendingCount + 1 }

/-- `haz_defer_free` by thread `t`. -/
def hazDeferFree (junk : ℕ → ℕ → Pending) (t d f : ℕ) : ℕ → State → Option State
  | 0, _ => none
  | fuel + 1, s =>
    let l := s.hazLocal t
    if l.pendingCount ≠ l.pendingSize then some (s.setLocal t (l.append d f))
    else if l.pendingSize = 0 then
      let l :=
        { l with
          pending := junk fuel
          pendingSize := maxNumThreads * staticHazPerThread }
      some (s.setLocal t (l.append d f))
    -- no room for the hazards
    else if l.pendingSize < s.hazards.length then
      hazDeferFree junk t d f fuel (s.setLocal t (resizePending l (junk fuel)))
    else hazDeferFree junk t d f fuel (s.sweep t)

/-! ## The other calls -/

/-- `haz_get_static`: the slot that it hands out. -/
def hazGetStatic (i : ℤ) : Option ℤ := if (staticHazPerThread : ℤ) ≤ i then none else some i

/-- `haz_set` on static slot `i`.  Below slot 0 lies other memory. -/
def HazLocal.setStatic (l : HazLocal) (i : ℤ) (p : ℕ) : HazLocal :=
  match i with
  | .ofNat k => { l with staticHaz := Function.update l.staticHaz k p }
  | .negSucc _ => l

/-- `haz_register_dynamic`: room for the location; `memcpy` copies `dynamic_size` bytes, and
a pointer has 8. -/
def HazLocal.grow (l : HazLocal) (junk : ℕ → ℕ) : HazLocal :=
  let l :=
    if l.dynamicSize = 0 then
      { l with dynamic := junk, dynamicSize := maxNumThreads * staticHazPerThread }
    else l
  if l.dynamicCount = l.dynamicSize then
    { l with
      dynamic := fun k => if 8 * (k + 1) ≤ l.dynamicSize then l.dynamic k else junk k
      dynamicSize := l.dynamicSize * 2 }
  else l

/-- `haz_register_dynamic`. -/
def HazLocal.register (l : HazLocal) (junk : ℕ → ℕ) (loc : ℕ) : HazLocal :=
  let l := l.grow junk
  { l with
    dynamic := Function.update l.dynamic l.dynamicCount loc
    dynamicCount := l.dynamicCount + 1 }

/-- `haz_unregister_dynamic`; nothing when `assert(0)` fails. -/
def HazLocal.unregister (l : HazLocal) (loc : ℕ) : Option HazLocal :=
  ((List.range l.dynamicCount).find? fun i => l.dynamic i = loc).map fun i =>
    { l with
      dynamic :=
        if i ≠ l.dynamicCount - 1 then Function.update l.dynamic i (l.dynamic (l.dynamicCount - 1))
        else l.dynamic
      dynamicCount := l.dynamicCount - 1 }

/-- A call. -/
inductive Act where
  | threadInit
  | deferFree (d f fuel : ℕ) (junk : ℕ → ℕ → Pending)
  | setStatic (i : ℤ) (p : ℕ)
  | setLocation (loc p : ℕ)
  | register (loc : ℕ) (junk : ℕ → ℕ)
  | unregister (loc : ℕ)

/-- One call by thread `e.1`; `nbd_thread_init` makes a new thread. -/
def step (s : State) (e : ℕ × Act) : Option State :=
  match e.2 with
  | .threadInit =>
    -- ASSERT(MaxThreadId <= MAX_NUM_THREADS)
    if s.maxThreadId < maxNumThreads then some { s with maxThreadId := s.maxThreadId + 1 } else none
  | act =>
    if 1 ≤ e.1 ∧ e.1 ≤ s.maxThreadId then
      match act with
      | .deferFree d f fuel junk => hazDeferFree junk e.1 d f fuel s
      | .setStatic i p =>
        match hazGetStatic i with
        | none => some s
        | some i => some (s.setLocal e.1 ((s.hazLocal e.1).setStatic i p))
      | .setLocation loc p => some { s with mem := Function.update s.mem loc p }
      | .register loc junk =>
        some { s.setLocal e.1 ((s.hazLocal e.1).register junk loc) with
          registered := Function.update s.registered e.1 (loc :: s.registered e.1) }
      | .unregister loc =>
        ((s.hazLocal e.1).unregister loc).map fun l =>
          { s.setLocal e.1 l with
            registered := Function.update s.registered e.1 ((s.registered e.1).erase loc) }
      | .threadInit => none
    else none

/-! ## What the hazard pointers are for -/

/-- Some thread holds the pointer in a static slot or in a registered location. -/
def State.Protected (s : State) (p : ℕ) : Prop :=
  p ≠ 0 ∧ ∃ t, (1 ≤ t ∧ t ≤ s.maxThreadId)
    ∧ ((∃ i, i < staticHazPerThread ∧ (s.hazLocal t).staticHaz i = p)
      ∨ ∃ loc ∈ s.registered t, loc ≠ 0 ∧ s.mem loc = p)

/-- The accesses by thread number and by slot number are in bounds. -/
def InBounds (e : ℕ × Act) : Prop :=
  match e.2 with
  | .threadInit => True
  | .setStatic i _ => e.1 < maxNumThreads ∧ ∀ j, hazGetStatic i = some j → 0 ≤ j
  | _ => e.1 < maxNumThreads

/-- Protection: a step frees nothing that is protected, and stays in bounds. -/
structure Protects (s s' : State) (e : ℕ × Act) : Prop where
  frees : ∀ new, s'.freed = s.freed ++ new → ∀ p ∈ new, ¬ s.Protected p
  bounds : InBounds e

/-- The thread is not the last one that `nbd_thread_init` admits, the slot is not negative,
and the table of a registration does not have to grow. -/
def Fits (s : State) (e : ℕ × Act) : Prop :=
  match e.2 with
  | .threadInit => True
  | .setStatic i _ => e.1 < maxNumThreads ∧ 0 ≤ i
  | .register _ _ => e.1 < maxNumThreads
      ∧ ((s.hazLocal e.1).dynamicSize = 0 ∨ (s.hazLocal e.1).dynamicCount < (s.hazLocal e.1).dynamicSize)
  | _ => e.1 < maxNumThreads

instance (s : State) (e : ℕ × Act) : Decidable (Fits s e) := by
  unfold Fits
  split <;> infer_instance

end Hazard
