/-
# The pending table of `haz_defer_free`

What one thread hands over is freed later, or stays in its pending table.  A scan that
finds more hazards than the table has slots doubles the table, and `resize_pending` copies
`pending_size` bytes, a sixteenth of it: the other entries are lost, and what the new block
held stands in their place.  That is the only way to lose a pointer (`pending_conserved`).

A scan that finds every pending pointer protected by exactly as many hazards as there are
slots neither frees a pointer nor enlarges the table, and the loop repeats it
(`returns_iff_not_held`).
-/
import Ssr.HazardProtect

open Interleaving

namespace Hazard

/-! ## One thread, and any hazards -/

/-- The pending table of a thread; `freed` is the history of the calls of the free
functions, `deferred` that of the completed calls of `haz_defer_free`. -/
structure Owner where
  table : HazLocal
  freed : List Pending
  deferred : List Pending

/-- Before the first call. -/
def Owner.start : Owner := ⟨init.hazLocal 0, [], []⟩

/-- `HazLocal.append`, with what was handed over. -/
def Owner.append (q : Owner) (l : HazLocal) (p : Pending) : Owner :=
  { q with table := l.append p.ptr p.free, deferred := q.deferred ++ [p] }

/-- One pass over the pending table. -/
def Owner.sweep (q : Owner) (hazards : List ℕ) : Owner :=
  let l := q.table
  let kept := l.conflicts hazards
  { q with
    table := { l with pending := fun k => kept.getD k (l.pending k), pendingCount := kept.length }
    freed := q.freed ++ l.entries.filter (·.ptr ∉ hazards) }

/-- `haz_defer_free`, where the `i`-th scan of the call finds the hazards `scan i`. -/
def deferFree (junk : ℕ → Pending) (p : Pending) : ℕ → (ℕ → List ℕ) → Owner → Option Owner
  | 0, _, _ => none
  | fuel + 1, scan, q =>
    let l := q.table
    if l.pendingCount ≠ l.pendingSize then some (q.append l p)
    else if l.pendingSize = 0 then
      some (q.append
        { l with pending := junk, pendingSize := maxNumThreads * staticHazPerThread } p)
    else if l.pendingSize < (scan 0).length then
      deferFree junk p fuel (fun i => scan (i + 1)) { q with table := resizePending l junk }
    else deferFree junk p fuel (fun i => scan (i + 1)) (q.sweep (scan 0))

/-- A call of `haz_defer_free`: its arguments, what its scans find, and what the memory
holds that it gets from `nbd_malloc`. -/
structure Deferral where
  arg : Pending
  scan : ℕ → List ℕ
  junk : ℕ → Pending
  fuel : ℕ

/-- One call. -/
def defer (q : Owner) (e : Deferral) : Option Owner := deferFree e.junk e.arg e.fuel e.scan q

/-- What was handed over is freed or pending, each pointer once and with its own free
function. -/
def Owner.Conserved (q : Owner) : Prop := (q.freed ++ q.table.entries).Perm q.deferred

instance : DecidablePred Owner.Conserved :=
  fun q => inferInstanceAs (Decidable ((q.freed ++ q.table.entries).Perm q.deferred))

/-- Some scan of the call finds more hazards than the table has slots, and no scan before
it finds a pending pointer to free. -/
def HazLocal.Overflows (l : HazLocal) (scan : ℕ → List ℕ) : Prop :=
  l.pendingCount = l.pendingSize ∧ l.pendingSize ≠ 0
    ∧ ∃ i, l.pendingSize < (scan i).length
      ∧ ∀ j < i, (scan j).length ≤ l.pendingSize ∧ ∀ p ∈ l.entries, p.ptr ∈ scan j

/-- The state before a call: its scans do not overflow, or the block that `resize_pending`
gets holds already what `memcpy` leaves out. -/
def Copied (q : Owner) (e : Deferral) : Prop :=
  q.table.Overflows e.scan →
    (resizePending q.table e.junk).entries.Perm q.table.entries

section Table

variable {l : HazLocal} {q q' : Owner} {p : Pending} {junk : ℕ → Pending} {fuel : ℕ}
  {scan : ℕ → List ℕ} {hazards : List ℕ}

@[simp] theorem length_entries (l : HazLocal) : l.entries.length = l.pendingCount := by
  simp [HazLocal.entries]

theorem entries_append (l : HazLocal) (d f : ℕ) : (l.append d f).entries = l.entries ++ [⟨d, f⟩] := by
  simp only [HazLocal.entries, HazLocal.append, List.range_succ, List.map_append, List.map_cons,
    List.map_nil, Function.update_self]
  congr 1
  refine List.map_congr_left fun k hk => ?_
  exact Function.update_of_ne (List.mem_range.mp hk).ne ..

/-- The table after a pass has the entries that were kept. -/
theorem entries_sweep (q : Owner) (hazards : List ℕ) :
    (q.sweep hazards).table.entries = q.table.conflicts hazards := by
  refine List.ext_getElem (by simp [Owner.sweep]) fun k hk hk' => ?_
  simp only [HazLocal.entries, Owner.sweep, List.getElem_map, List.getElem_range]
  rw [List.getD_eq_getElem?_getD, List.getElem?_eq_getElem hk', Option.getD_some]

/-- A pass frees what it does not keep. -/
theorem sweep_conserves (q : Owner) (hazards : List ℕ) :
    ((q.sweep hazards).freed ++ (q.sweep hazards).table.entries).Perm
      (q.freed ++ q.table.entries) := by
  rw [entries_sweep]
  have h := List.filter_append_perm (fun e : Pending => decide (e.ptr ∉ hazards)) q.table.entries
  have hkept : q.table.conflicts hazards
      = q.table.entries.filter fun e => !decide (e.ptr ∉ hazards) :=
    List.filter_congr fun e _ => by simp
  rw [hkept]
  simp only [Owner.sweep, List.append_assoc]
  exact h.append_left q.freed

/-- Where all the pending pointers are protected a pass changes nothing. -/
theorem sweep_of_held (hheld : ∀ e ∈ q.table.entries, e.ptr ∈ hazards) : q.sweep hazards = q := by
  have hkept : q.table.conflicts hazards = q.table.entries :=
    List.filter_eq_self.mpr fun e he => decide_eq_true (hheld e he)
  have hnone : q.table.entries.filter (fun e => decide (e.ptr ∉ hazards)) = [] :=
    List.filter_eq_nil_iff.mpr fun e he => by simp [hheld e he]
  have hpending : (fun k => q.table.entries.getD k (q.table.pending k)) = q.table.pending := by
    funext k
    by_cases hk : k < q.table.pendingCount
    · simp [HazLocal.entries, hk]
    · simp [HazLocal.entries, hk]
  simp only [Owner.sweep, hkept, hnone, hpending, length_entries, List.append_nil]

/-- A pass that frees a pointer makes room. -/
theorem sweep_count_lt (hfree : ∃ e ∈ q.table.entries, e.ptr ∉ hazards) :
    (q.sweep hazards).table.pendingCount < q.table.pendingCount := by
  obtain ⟨e, he, hne⟩ := hfree
  rw [← length_entries q.table]
  exact List.length_filter_lt_length_iff_exists.mpr ⟨e, he, by simpa using hne⟩

theorem not_overflows_of_room (h : l.pendingCount ≠ l.pendingSize) : ¬ l.Overflows scan :=
  fun ho => h ho.1

/-- A scan that does not overflow and frees nothing leaves the question to the next one. -/
theorem overflows_succ (hfit : (scan 0).length ≤ l.pendingSize)
    (hheld : ∀ e ∈ l.entries, e.ptr ∈ scan 0) :
    l.Overflows scan ↔ l.Overflows fun i => scan (i + 1) := by
  constructor
  · rintro ⟨hfull, hpos, i, hi, hbefore⟩
    cases i with
    | zero => omega
    | succ i =>
      exact ⟨hfull, hpos, i, hi, fun j hj => hbefore (j + 1) (Nat.succ_lt_succ hj)⟩
  · rintro ⟨hfull, hpos, i, hi, hbefore⟩
    refine ⟨hfull, hpos, i + 1, hi, fun j hj => ?_⟩
    cases j with
    | zero => exact ⟨hfit, hheld⟩
    | succ j => exact hbefore j (Nat.lt_of_succ_lt_succ hj)

/-- A scan that frees a pointer ends the scanning. -/
theorem not_overflows_of_free (hfit : (scan 0).length ≤ l.pendingSize)
    (hfree : ∃ e ∈ l.entries, e.ptr ∉ scan 0) : ¬ l.Overflows scan := by
  rintro ⟨-, -, i, hi, hbefore⟩
  obtain ⟨e, he, hne⟩ := hfree
  cases i with
  | zero => omega
  | succ i => exact hne ((hbefore 0 (Nat.succ_pos i)).2 e he)

theorem deferFree_of_room (h : q.table.pendingCount ≠ q.table.pendingSize) :
    deferFree junk p (fuel + 1) scan q = some (q.append q.table p) := if_pos h

/-- **What a call does**: it resizes the table and appends, or it appends to what is left
when some entries are freed. -/
theorem deferFree_spec (h : deferFree junk p fuel scan q = some q') :
    q'.deferred = q.deferred ++ [p]
      ∧ (q.table.Overflows scan ∧ q'.freed = q.freed
          ∧ q'.table.entries = (resizePending q.table junk).entries ++ [p]
        ∨ ¬ q.table.Overflows scan
          ∧ (q'.freed ++ q'.table.entries).Perm (q.freed ++ q.table.entries ++ [p])) := by
  induction fuel generalizing scan q with
  | zero => cases h
  | succ fuel ih =>
    simp only [deferFree] at h
    split_ifs at h with hroom hzero hover
    · cases h
      refine ⟨rfl, .inr ⟨not_overflows_of_room hroom, ?_⟩⟩
      simp only [Owner.append, entries_append, List.append_assoc]
      rfl
    · cases h
      refine ⟨rfl, .inr ⟨fun ho => ho.2.1 hzero, ?_⟩⟩
      have hnone : ∀ m : HazLocal, m.pendingCount = 0 → m.entries = [] := fun m hm => by
        rw [← List.length_eq_zero_iff, length_entries, hm]
      have hcount : q.table.pendingCount = 0 := (not_not.mp hroom).trans hzero
      have hfresh : HazLocal.entries { q.table with
          pending := junk
          pendingSize := maxNumThreads * staticHazPerThread } = [] := hnone _ hcount
      simp only [Owner.append, entries_append]
      rw [hfresh, hnone q.table hcount, List.append_nil]
      rfl
    · -- the resized table has room
      cases fuel with
      | zero => cases h
      | succ fuel =>
        have hfull : q.table.pendingCount = q.table.pendingSize := not_not.mp hroom
        have hnext : q.table.pendingCount ≠ q.table.pendingSize * 2 := by omega
        rw [deferFree_of_room hnext] at h
        cases h
        refine ⟨rfl, .inl ⟨⟨hfull, hzero, 0, hover, fun j hj => absurd hj j.not_lt_zero⟩, rfl, ?_⟩⟩
        exact entries_append ..
    · have hfit : (scan 0).length ≤ q.table.pendingSize := not_lt.mp hover
      by_cases hheld : ∀ e ∈ q.table.entries, e.ptr ∈ scan 0
      · rw [sweep_of_held hheld] at h
        rw [overflows_succ hfit hheld]
        exact ih h
      · push Not at hheld
        obtain ⟨hdef, ⟨ho, -, -⟩ | ⟨-, hperm⟩⟩ := ih h
        · -- the pass has made room, so nothing can overflow after it
          have hlt := sweep_count_lt hheld
          have hsize : (q.sweep (scan 0)).table.pendingSize = q.table.pendingSize := rfl
          have hfull := ho.1
          omega
        · refine ⟨hdef, .inr ⟨not_overflows_of_free hfit hheld, hperm.trans ?_⟩⟩
          exact (sweep_conserves q (scan 0)).append_right [p]

/-- Whether a call loses a pointer. -/
theorem conserved_defer_iff {e : Deferral} (hq : q.Conserved) (h : defer q e = some q') :
    q'.Conserved ↔ Copied q e := by
  unfold Owner.Conserved Copied at *
  obtain ⟨hdef, ⟨ho, hfreed, hentries⟩ | ⟨ho, hperm⟩⟩ := deferFree_spec h
  · rw [hdef, hfreed, hentries, ← List.append_assoc, List.perm_append_right_iff]
    refine ⟨fun hall _ => ?_, fun hcopied => ((hcopied ho).append_left q.freed).trans hq⟩
    exact (List.perm_append_left_iff q.freed).mp (hall.trans hq.symm)
  · refine iff_of_true ?_ (absurd · ho)
    rw [hdef]
    exact hperm.trans (hq.append_right _)

end Table

/-- **Deferred pointers survive.**  For every sequence of calls, with any hazards at each
scan: after every completed call the pointers freed so far and the pending ones are those
handed over so far, exactly if no call loses the entries that a resize leaves out. -/
theorem pending_conserved (es : List Deferral) (q : Owner)
    (hrun : run defer Owner.start es = some q) :
    (∀ pre post q', es = pre ++ post → run defer Owner.start pre = some q' → q'.Conserved)
      ↔ StepsMeet defer Copied Owner.start es :=
  always_iff_stepsMeet (fun _ _ _ _ hq _ hstep => ⟨trivial, conserved_defer_iff hq hstep⟩)
    (trivial : (fun _ => True) Owner.start) (List.Perm.refl []) (fun _ _ => trivial) hrun

/-- The size of a first table. -/
def firstSize : ℕ := maxNumThreads * staticHazPerThread

/-- Without an overflow no table but the first one is allocated. -/
theorem deferFree_size {junk : ℕ → Pending} {p : Pending} {fuel : ℕ} {scan : ℕ → List ℕ}
    {q q' : Owner} (hfew : ∀ i, (scan i).length ≤ firstSize)
    (hsize : q.table.pendingSize = 0 ∨ q.table.pendingSize = firstSize)
    (h : deferFree junk p fuel scan q = some q') :
    q'.table.pendingSize = 0 ∨ q'.table.pendingSize = firstSize := by
  induction fuel generalizing scan q with
  | zero => cases h
  | succ fuel ih =>
    simp only [deferFree] at h
    split_ifs at h with hroom hzero hover
    · cases h
      exact hsize
    · cases h
      exact .inr rfl
    · have hlen := hfew 0
      omega
    · exact ih (q := q.sweep (scan 0)) (fun i => hfew (i + 1)) hsize h

/-- While no scan finds more hazards than a first table has slots, nothing is lost. -/
theorem copied_of_few_hazards (es : List Deferral)
    (hfew : ∀ e ∈ es, ∀ i, (e.scan i).length ≤ firstSize) :
    StepsMeet defer Copied Owner.start es := by
  refine stepsMeet_of_invariant
    (fun s e s' hsize hscan hstep => deferFree_size hscan hsize hstep) ?_ (.inl rfl) hfew
  rintro s e hsize hscan ⟨-, hpos, i, hi, -⟩
  have hlen := hscan i
  omega

/-- 64 pointers are handed over, and one more. -/
def sixtyFive (scan : ℕ → List ℕ) : List Deferral :=
  (List.range' 100 65).map fun d => ⟨⟨d, 1⟩, scan, fun _ => ⟨0, 0⟩, 3⟩

/-- With two hazards 62 of the pointers are freed. -/
theorem pending_conserved_two_hazards :
    ∃ q, run defer Owner.start (sixtyFive fun _ => [100, 110]) = some q ∧ q.freed.length = 62
      ∧ ∀ pre post q', sixtyFive (fun _ => [100, 110]) = pre ++ post →
        run defer Owner.start pre = some q' → q'.Conserved := by
  obtain ⟨q, hq, hlen⟩ := Option.map_eq_some_iff.mp (show
    (run defer Owner.start (sixtyFive fun _ => [100, 110])).map (·.freed.length) = some 62 by
      decide +kernel)
  refine ⟨q, hq, hlen, (pending_conserved _ q hq).mpr (copied_of_few_hazards _ fun e he i => ?_)⟩
  obtain ⟨d, -, rfl⟩ := List.mem_map.mp he
  show [100, 110].length ≤ firstSize
  decide

/-- With 65 hazards the table is resized, and 60 of the 64 entries are gone. -/
theorem pending_lost :
    ∃ q, run defer Owner.start (sixtyFive fun _ => List.range' 100 65) = some q
      ∧ ¬ q.Conserved := by
  obtain ⟨q, hq, hlost⟩ := Option.map_eq_some_iff.mp (show
    (run defer Owner.start (sixtyFive fun _ => List.range' 100 65)).map
        (fun q => decide q.Conserved) = some false by decide +kernel)
  exact ⟨q, hq, of_decide_eq_false hlost⟩

/-! ## The scan that changes nothing -/

section Held

variable {s : State} {t d f fuel : ℕ}

/-- A pass over the table of a thread of the program. -/
theorem hazLocal_sweep (s : State) (t : ℕ) (freed deferred : List Pending) :
    (s.sweep t).hazLocal t = ((Owner.mk (s.hazLocal t) freed deferred).sweep s.hazards).table :=
  setLocal_self _

/-- A call of one thread is a call of the program in which all scans find the same. -/
theorem deferFree_of_hazDeferFree {junk : ℕ → Pending} {s' : State} {q : Owner}
    (hq : q.table = s.hazLocal t) (hfreed : q.freed.map (·.ptr) = s.freed)
    (h : hazDeferFree (fun _ => junk) t d f fuel s = some s') :
    ∃ q', deferFree junk ⟨d, f⟩ fuel (fun _ => s.hazards) q = some q'
      ∧ q'.table = s'.hazLocal t ∧ q'.freed.map (·.ptr) = s'.freed := by
  induction fuel generalizing s q with
  | zero => cases h
  | succ fuel ih =>
    obtain ⟨table, freed, deferred⟩ := q
    obtain rfl : table = s.hazLocal t := hq
    simp only [hazDeferFree] at h
    simp only [deferFree]
    split_ifs at h ⊢ with hroom hzero hover
    · cases h
      exact ⟨_, rfl, (setLocal_self _).symm, hfreed⟩
    · cases h
      exact ⟨_, rfl, (setLocal_self _).symm, hfreed⟩
    · have hsame : SameTables s (s.setLocal t (resizePending (s.hazLocal t) junk)) :=
        SameTables.of_setLocal rfl rfl rfl rfl rfl rfl rfl rfl
      rw [← hsame.hazards_eq]
      exact ih (setLocal_self _).symm hfreed h
    · have hsame : SameTables s (s.sweep t) :=
        SameTables.of_setLocal rfl rfl rfl rfl rfl rfl rfl rfl
      have hrest := ih (q := (Owner.mk (s.hazLocal t) freed deferred).sweep s.hazards)
        (hazLocal_sweep s t freed deferred).symm (by simp [Owner.sweep, State.sweep, hfreed]) h
      rwa [hsame.hazards_eq] at hrest

/-- The table of thread `t` is full, and the hazards are its pending pointers, as many as
there are slots. -/
def State.Held (s : State) (t : ℕ) : Prop :=
  (s.hazLocal t).pendingCount = (s.hazLocal t).pendingSize ∧ (s.hazLocal t).pendingSize ≠ 0
    ∧ s.hazards.Perm ((s.hazLocal t).entries.map (·.ptr))

/-- A pass of the loop frees a pending pointer or enlarges the table. -/
def State.Progress (s : State) (t : ℕ) : Prop :=
  (∃ e ∈ (s.hazLocal t).entries, e.ptr ∉ s.hazards)
    ∨ (s.hazLocal t).pendingSize < s.hazards.length

/-- A full table of distinct pointers without progress is held. -/
theorem held_of_not_progress (hnodup : ((s.hazLocal t).entries.map (·.ptr)).Nodup)
    (hfull : (s.hazLocal t).pendingCount = (s.hazLocal t).pendingSize)
    (hpos : (s.hazLocal t).pendingSize ≠ 0) (h : ¬ s.Progress t) : s.Held t := by
  unfold State.Progress at h
  push Not at h
  obtain ⟨hheld, hle⟩ := h
  refine ⟨hfull, hpos, ?_⟩
  have hsub : (s.hazLocal t).entries.map (·.ptr) ⊆ s.hazards := by
    intro x hx
    obtain ⟨e, he, rfl⟩ := List.mem_map.mp hx
    exact hheld e he
  have hlen : s.hazards.length ≤ ((s.hazLocal t).entries.map (·.ptr)).length := by
    rw [List.length_map, length_entries, hfull]
    exact hle
  exact ((List.subperm_of_subset hnodup hsub).perm_of_length_le hlen).symm

theorem State.Held.not_progress (h : s.Held t) : ¬ s.Progress t := by
  obtain ⟨hfull, -, hperm⟩ := h
  rintro (⟨e, he, hne⟩ | hlt)
  · exact hne (hperm.mem_iff.mpr (List.mem_map_of_mem he))
  · have hlen := hperm.length_eq
    rw [List.length_map, length_entries, hfull] at hlen
    omega

/-- A held table is the same after the pass. -/
theorem State.Held.sweep_eq (h : s.Held t) : s.sweep t = s := by
  have hheld : ∀ e ∈ (s.hazLocal t).entries, e.ptr ∈ s.hazards := fun e he => by
    by_contra hne
    exact h.not_progress (.inl ⟨e, he, hne⟩)
  have hq : (Owner.mk (s.hazLocal t) [] []).sweep s.hazards = ⟨s.hazLocal t, [], []⟩ :=
    sweep_of_held hheld
  have hnone : (s.hazLocal t).entries.filter (fun e => decide (e.ptr ∉ s.hazards)) = [] :=
    congrArg Owner.freed hq
  show { s.setLocal t ((Owner.mk (s.hazLocal t) [] []).sweep s.hazards).table with
    freed := s.freed
      ++ ((s.hazLocal t).entries.filter (fun e => decide (e.ptr ∉ s.hazards))).map (·.ptr) } = s
  rw [hq, hnone, List.map_nil, List.append_nil, State.setLocal, Function.update_eq_self]

theorem State.Held.never_returns (h : s.Held t) (junk : ℕ → ℕ → Pending) :
    hazDeferFree junk t d f fuel s = none := by
  induction fuel with
  | zero => rfl
  | succ fuel ih =>
    have hover : ¬ (s.hazLocal t).pendingSize < s.hazards.length :=
      fun hlt => h.not_progress (.inr hlt)
    simp only [hazDeferFree, not_not.mpr h.1, if_false, h.2.1, hover, h.sweep_eq, ih]

/-- A pass that makes progress leaves room for the new entry. -/
theorem returns_of_progress (h : s.Progress t) (junk : ℕ → ℕ → Pending) :
    ∃ s', hazDeferFree junk t d f 2 s = some s' := by
  rw [hazDeferFree]
  split_ifs with hroom hzero hover
  · exact ⟨_, rfl⟩
  · exact ⟨_, rfl⟩
  · refine ⟨_, if_pos ?_⟩
    rw [setLocal_self]
    have hfull : (s.hazLocal t).pendingCount = (s.hazLocal t).pendingSize := not_not.mp hroom
    show (s.hazLocal t).pendingCount ≠ (s.hazLocal t).pendingSize * 2
    omega
  · refine ⟨_, if_pos ?_⟩
    have hlt := sweep_count_lt (q := ⟨s.hazLocal t, [], []⟩) (h.resolve_right hover)
    have hfull : (s.hazLocal t).pendingCount = (s.hazLocal t).pendingSize := not_not.mp hroom
    rw [hazLocal_sweep s t [] []]
    show _ ≠ (s.hazLocal t).pendingSize
    rw [← hfull]
    exact hlt.ne

end Held

/-- **When `haz_defer_free` returns.**  For every pending table of distinct pointers and all
hazards, which stay as they are: the call returns, and the pass that it begins with a full
table frees a pending pointer or enlarges the table, exactly if the table is not held. -/
theorem returns_iff_not_held (s : State) (t d f : ℕ) (junk : ℕ → ℕ → Pending)
    (hnodup : ((s.hazLocal t).entries.map (·.ptr)).Nodup) :
    ((∃ fuel s', hazDeferFree junk t d f fuel s = some s') ↔ ¬ s.Held t)
      ∧ ((s.hazLocal t).pendingCount = (s.hazLocal t).pendingSize →
        (s.hazLocal t).pendingSize ≠ 0 → (s.Progress t ↔ ¬ s.Held t)) := by
  refine ⟨⟨?_, fun hheld => ?_⟩, fun hfull hpos => ⟨fun hprog hheld => hheld.not_progress hprog, ?_⟩⟩
  · rintro ⟨fuel, s', hs'⟩ hheld
    rw [hheld.never_returns junk] at hs'
    cases hs'
  · by_cases hroom : (s.hazLocal t).pendingCount = (s.hazLocal t).pendingSize
    · by_cases hzero : (s.hazLocal t).pendingSize = 0
      · exact ⟨1, _, (if_neg (not_not.mpr hroom)).trans (if_pos hzero)⟩
      · have hprog : s.Progress t := by
          by_contra hno
          exact hheld (held_of_not_progress hnodup hroom hzero hno)
        exact ⟨2, returns_of_progress hprog junk⟩
    · exact ⟨1, _, if_pos hroom⟩
  · intro hheld
    by_contra hno
    exact hheld (held_of_not_progress hnodup hfull hpos hno)

theorem returns_of_two_hazards :
    ∃ s, run step init heldRun = some s
      ∧ ∃ fuel s', hazDeferFree (fun _ _ => ⟨0, 0⟩) 2 500 1 fuel s = some s' := by
  obtain ⟨s, hs, heq⟩ := Option.map_eq_some_iff.mp (show
    (run step init heldRun).map (fun s => ((s.hazLocal 2).entries.map (·.ptr), s.hazards))
      = some (List.range' 100 64, [100, 101]) by decide +kernel)
  obtain ⟨hptrs, hhazards⟩ := Prod.mk.inj heq
  have hnodup : ((s.hazLocal 2).entries.map (·.ptr)).Nodup := by
    rw [hptrs]
    decide
  refine ⟨s, hs, (returns_iff_not_held s 2 500 1 (fun _ _ => ⟨0, 0⟩) hnodup).1.mpr ?_⟩
  rintro ⟨-, -, hperm⟩
  rw [hptrs, hhazards] at hperm
  exact absurd hperm.length_eq (by decide)

/-- Thread 2 registers 64 locations that hold the pointers which thread 1 hands over. -/
def sixtyFourHeld : List (ℕ × Act) :=
  [(0, Act.threadInit), (0, Act.threadInit)]
    ++ (List.range' 100 64).flatMap (fun d =>
      [(2, Act.register d fun _ => 0), (2, Act.setLocation d d)])
    ++ deferring 1 (List.range' 100 64)

/-- **An endless loop**: thread 1 holds 64 pending pointers, each protected by a location of
thread 2, and hands over one more. -/
theorem sixty_four_held_never_return :
    ∃ s, run step init sixtyFourHeld = some s
      ∧ ((s.hazLocal 1).entries.map (·.ptr)).Nodup
      ∧ ∀ fuel, hazDeferFree (fun _ _ => ⟨0, 0⟩) 1 500 1 fuel s = none := by
  obtain ⟨s, hs, heq⟩ := Option.map_eq_some_iff.mp (show
    (run step init sixtyFourHeld).map (fun s => ((s.hazLocal 1).entries.map (·.ptr), s.hazards,
        (s.hazLocal 1).pendingSize))
      = some (List.range' 100 64, List.range' 100 64, 64) by decide +kernel)
  obtain ⟨hptrs, heq⟩ := Prod.mk.inj heq
  obtain ⟨hhazards, hsize⟩ := Prod.mk.inj heq
  have hcount : (s.hazLocal 1).pendingCount = 64 := by
    rw [← length_entries, ← List.length_map, hptrs]
    decide
  have hheld : s.Held 1 := by
    refine ⟨hcount.trans hsize.symm, by rw [hsize]; decide, ?_⟩
    rw [hptrs, hhazards]
  refine ⟨s, hs, ?_, fun fuel => hheld.never_returns _⟩
  rw [hptrs]
  decide

end Hazard
