/-
# The slots of `clifo`

Reserving a slot and filling or draining it are separate steps, so any number of pushes
and pops may wait for one slot.  What holds of every slot is a balance: the pushes that
wait for it and the value in it make up for the pops that wait for it and for the slot's
share of `head`.

* `Slots`, `Ledger` — the invariant: the slots, and the calls;
* `Loc`, `Rely` — what a thread knows, and what it relies on;
* one lemma for each operation and each half of the invariant.
-/
import Ssr.Clifo

open Interleaving Linearizability

namespace Clifo

/-! ## The invariant -/

/-- Every call at a slot is in the listing of the slot, and the other way round. -/
def Lifo.Listed (s : Lifo) : Prop :=
  ∀ i c x, (c, x) ∈ s.listing i ↔ s.place c = x ∧ x.slot = some i

/-- What holds of the slots. -/
structure Slots (size : ℕ) (s : Lifo) : Prop where
  bound : s.bound = size
  head_lt : s.head < size
  lock : ∀ i, s.lock i = (s.phase i).lock
  balance : ∀ i, (s.waitPush i).length + (s.phase i).held.length
    = (s.waitPop i).length + if i < s.head then 1 else 0
  listed : s.Listed
  nodup_push : ∀ i, ((s.waitPush i).map (·.1)).Nodup
  nodup_pop : ∀ i, ((s.waitPop i).map (·.1)).Nodup
  slot_lt : ∀ c i, (s.place c).slot = some i → i < size
  stored : ∀ i p v, s.place p = .full i v ∨ s.place p = .taken i v →
    s.value i = v ∧ s.source i = p

/-- What holds of the calls. -/
structure Ledger (s : Lifo) : Prop where
  logged : ∀ c, c ∈ s.log.map (·.1) ↔ s.place c ≠ .idle
  fresh : ∀ c, s.place c ≠ .idle → c.2 < s.calls c.1
  nodup_fst : (s.reads.map (·.1)).Nodup
  nodup_snd : (s.reads.map (·.2)).Nodup
  read : ∀ p, p ∈ s.reads.map (·.2) ↔ ∃ v, s.place p = .read v
  drained : ∀ q, q ∈ s.reads.map (·.1) ↔ (∃ i, s.place q = .drained i) ∨ s.place q = .popped
  tracks : Tracks s.events s.log
  returned : ∀ q v, .ret q (.pop v) ∈ s.events → s.Popped q →
    ∃ p, (q, p) ∈ s.reads ∧ s.Pushed p v

/-- What a thread knows besides the place of its call. -/
def Extra (t : ℕ) (s : Lifo) : Pc → Prop
  | .pushHead c v => c.2 < s.calls t ∧ .call c (.push v) ∈ s.events
  | .pushCas c v head => (c.2 < s.calls t ∧ .call c (.push v) ∈ s.events) ∧ head + 1 < s.bound
  | .pushUnlock c v i => s.value i = v ∧ s.source i = c
  | .popHead c => c.2 < s.calls t ∧ .call c .pop ∈ s.events
  | .popCas c head => (c.2 < s.calls t ∧ .call c .pop ∈ s.events) ∧ head ≠ 0
  | .popUnlock c _ v => ∃ p, (c, p) ∈ s.reads ∧ s.Pushed p v
  | _ => True

/-- The local invariant. -/
structure Loc (t : ℕ) (s : Lifo) (pc : Pc) : Prop where
  mine : ∀ c : Id, c.1 = t → (s.place c).Active → pc.place = some (c, s.place c)
  here : ∀ c x, pc.place = some (c, x) → c.1 = t ∧ s.place c = x
  extra : Extra t s pc

/-- What a thread relies on: its calls stay where they are, except that a value it stored
may be taken and read. -/
structure Rely (u : ℕ) (s s' : Lifo) : Prop where
  bound : s'.bound = s.bound
  calls : s'.calls u = s.calls u
  place : ∀ c : Id, c.1 = u → s'.place c = s.place c
    ∨ ¬ (s.place c).Active ∧ s.place c ≠ .idle ∧ ¬ (s'.place c).Active ∧ s'.place c ≠ .idle
  filling : ∀ (c : Id) i v, c.1 = u → s.place c = .filling i v →
    s'.value i = s.value i ∧ s'.source i = s.source i
  pushed : ∀ p v, s.Pushed p v → s'.Pushed p v
  reads : s.reads ⊆ s'.reads
  log : s.log ⊆ s'.log
  events : s.events ⊆ s'.events

/-! ## Moving calls -/

section Moves

variable {size i t : ℕ} {s s' : Lifo} {c d p q : Id} {v : ℕ} {x : Place}

/-- The call that moves. -/
@[simp] theorem move_place_self : (s.move c x).place c = x := Function.update_self ..

/-- The other calls stay where they are. -/
theorem move_place_of_ne (h : d ≠ c) : (s.move c x).place d = s.place d :=
  Function.update_of_ne h ..

/-- Who is listed at a slot. -/
theorem mem_listing {x : Place} :
    (c, x) ∈ s.listing i ↔ (∃ w, (c, w) ∈ s.waitPush i ∧ .pushWaits i w = x)
      ∨ ((∃ w, (c, w) ∈ s.waitPop i) ∧ .popWaits i = x) ∨ (c, x) ∈ (s.phase i).places i := by
  unfold Lifo.listing
  rw [List.mem_append, List.mem_append, or_assoc, List.mem_map, List.mem_map]
  apply or_congr
  · constructor
    · rintro ⟨⟨a, w⟩, hmem, heq⟩
      cases heq
      exact ⟨w, hmem, rfl⟩
    · rintro ⟨w, hmem, rfl⟩
      exact ⟨(c, w), hmem, rfl⟩
  · apply or_congr _ Iff.rfl
    constructor
    · rintro ⟨⟨a, w⟩, hmem, heq⟩
      cases heq
      exact ⟨⟨w, hmem⟩, rfl⟩
    · rintro ⟨⟨w, hmem⟩, rfl⟩
      exact ⟨(c, w), hmem, rfl⟩

/-- Some calls change their places at slot `i`. -/
theorem Lifo.Listed.update (h : s.Listed) (touched : List Id)
    (hother : ∀ j, j ≠ i → s'.listing j = s.listing j)
    (hsame : ∀ d ∉ touched, s'.place d = s.place d
      ∧ ∀ x, (d, x) ∈ s'.listing i ↔ (d, x) ∈ s.listing i)
    (htouch : ∀ d ∈ touched, (∀ x, (d, x) ∈ s'.listing i ↔ s'.place d = x ∧ x.slot = some i)
      ∧ ((s.place d).slot = some i ∨ (s.place d).slot = none)
      ∧ ((s'.place d).slot = some i ∨ (s'.place d).slot = none)) : s'.Listed := by
  intro j d x
  by_cases hd : d ∈ touched
  · obtain ⟨hnew, hs, hs'⟩ := htouch d hd
    by_cases hj : j = i
    · rw [hj]
      exact hnew x
    · rw [hother j hj, h j d x]
      constructor
      · rintro ⟨rfl, hx⟩
        rw [hx] at hs
        simp [hj] at hs
      · rintro ⟨rfl, hx⟩
        rw [hx] at hs'
        simp [hj] at hs'
  · obtain ⟨hp, hl⟩ := hsame d hd
    rw [hp]
    by_cases hj : j = i
    · rw [hj, hl x]
      exact h i d x
    · rw [hother j hj]
      exact h j d x

/-- A call that is at no slot moves to no slot. -/
theorem Lifo.Listed.move (h : s.Listed) (hc : (s.place c).slot = none) (hx : x.slot = none) :
    (s.move c x).Listed := by
  intro j d y
  by_cases hd : d = c
  · rw [hd, move_place_self]
    rw [show (s.move c x).listing j = s.listing j from rfl, h j c y]
    constructor
    · rintro ⟨rfl, hy⟩
      rw [hc] at hy
      exact absurd hy (by simp)
    · rintro ⟨rfl, hy⟩
      rw [hx] at hy
      exact absurd hy (by simp)
  · rw [move_place_of_ne hd]
    exact h j d y

/-- The wait list of a slot without one call. -/
theorem length_filter_ne {l : List (Id × ℕ)} (hn : (l.map (·.1)).Nodup) (hc : (c, v) ∈ l) :
    (l.filter fun w => w.1 ≠ c).length + 1 = l.length := by
  induction l with
  | nil => exact absurd hc List.not_mem_nil
  | cons w l ih =>
    rw [List.map_cons, List.nodup_cons] at hn
    by_cases hw : w.1 = c
    · have hrest : l.filter (fun w => decide (w.1 ≠ c)) = l := by
        refine List.filter_eq_self.mpr fun y hy => decide_eq_true ?_
        rintro hyc
        exact hn.1 (by rw [hw, ← hyc]; exact List.mem_map_of_mem hy)
      rw [List.filter_cons_of_neg (by simpa using hw), hrest, List.length_cons]
    · rw [List.filter_cons_of_pos (by simpa using hw), List.length_cons, List.length_cons]
      have hcl : (c, v) ∈ l := by
        rcases List.mem_cons.mp hc with h | h
        · exact absurd (congrArg Prod.fst h).symm hw
        · exact h
      rw [ih hn.2 hcl]

/-- A call that is taken out of a list leaves no call twice. -/
theorem nodup_filter_ne {l : List (Id × ℕ)} (hn : (l.map (·.1)).Nodup) :
    ((l.filter fun w => w.1 ≠ c).map (·.1)).Nodup :=
  hn.sublist (List.Sublist.map _ List.filter_sublist)

/-- A call goes from one place to another of the same kind. -/
def SameKind (x x' : Place) : Prop :=
  x'.pushed = x.pushed ∧ (x'.Pops ↔ x.Pops) ∧ (x' = .idle ↔ x = .idle)
    ∧ ((∃ v, x' = .read v) ↔ ∃ v, x = .read v)
    ∧ ((∃ i, x' = .drained i) ∨ x' = .popped ↔ (∃ i, x = .drained i) ∨ x = .popped)

/-- A place is of its own kind. -/
theorem SameKind.refl (x : Place) : SameKind x x := ⟨rfl, Iff.rfl, Iff.rfl, Iff.rfl, Iff.rfl⟩

/-- Places of the same kind keep the ledger. -/
theorem Ledger.congr (h : Ledger s) (hlog : s'.log = s.log) (hcalls : s'.calls = s.calls)
    (hreads : s'.reads = s.reads) (hevents : s'.events = s.events)
    (hplace : ∀ c, SameKind (s.place c) (s'.place c)) : Ledger s' := by
  refine ⟨fun c => ?_, fun c hc => ?_, by rw [hreads]; exact h.nodup_fst,
    by rw [hreads]; exact h.nodup_snd, fun p => ?_, fun q => ?_, ?_, ?_⟩
  · rw [hlog, h.logged]
    exact not_congr (hplace c).2.2.1.symm
  · rw [hcalls]
    exact h.fresh c fun hi => hc ((hplace c).2.2.1.mpr hi)
  · rw [hreads, h.read]
    exact (hplace p).2.2.2.1.symm
  · rw [hreads, h.drained]
    exact (hplace q).2.2.2.2.symm
  · rw [hlog, hevents]
    exact h.tracks
  · intro q v hret hq
    rw [hevents] at hret
    rw [hreads]
    obtain ⟨p, hp, hv⟩ := h.returned q v hret ((hplace q).2.1.mp hq)
    exact ⟨p, hp, (hplace p).1.trans hv⟩

/-- One call moves. -/
theorem sameKind_move (hx : SameKind (s.place c) x) (d : Id) :
    SameKind (s.place d) ((s.move c x).place d) := by
  by_cases hd : d = c
  · rw [hd, move_place_self]
    exact hx
  · rw [move_place_of_ne hd]
    exact SameKind.refl _

end Moves

/-! ## The ledger of calls -/

section Ledger

variable {t i v : ℕ} {s : Lifo} {c : Id} {op : Op} {r : Ret}

/-- A new call comes into the ledger. -/
theorem Ledger.enter (h : Ledger s) (t : ℕ) (op : Op) : Ledger (s.enter t op) := by
  have hnew : (t, s.calls t) ∉ s.log.map (·.1) := by
    rw [h.logged]
    exact fun hne => absurd (h.fresh _ hne) (lt_irrefl _)
  refine ⟨h.logged, fun c hc => ?_, h.nodup_fst, h.nodup_snd, h.read, h.drained,
    h.tracks.call hnew, fun q v hret hq => ?_⟩
  · have hlt := h.fresh c hc
    change c.2 < Function.update s.calls t (s.calls t + 1) c.1
    by_cases hct : c.1 = t
    · rw [hct, Function.update_self]
      rw [hct] at hlt
      omega
    · rw [Function.update_of_ne hct]
      exact hlt
  · rcases List.mem_append.mp hret with hret | hret
    · exact h.returned q v hret hq
    · exact absurd (List.mem_singleton.mp hret) (by simp)

/-- A call that has been decided returns. -/
theorem Ledger.leave (h : Ledger s) (hc : s.place c ≠ .idle)
    (hr : ∀ v, r = .pop v → s.Popped c → ∃ p, (c, p) ∈ s.reads ∧ s.Pushed p v) :
    Ledger (s.leave c r) := by
  refine ⟨h.logged, h.fresh, h.nodup_fst, h.nodup_snd, h.read, h.drained,
    h.tracks.ret ((h.logged c).mpr hc), fun q v hret hq => ?_⟩
  rcases List.mem_append.mp hret with hret | hret
  · exact h.returned q v hret hq
  · obtain ⟨rfl, rfl⟩ : q = c ∧ .pop v = r := by
      have := List.mem_singleton.mp hret
      exact ⟨(Event.ret.inj this).1, (Event.ret.inj this).2⟩
    exact hr v rfl hq

/-- A call is decided. -/
theorem Ledger.decide (h : Ledger s) (hidle : s.place c = .idle) (hlt : c.2 < s.calls c.1)
    (hcall : .call c op ∈ s.events) {x : Place} (hx : x ≠ .idle) (hread : ∀ v, x ≠ .read v)
    (hdr : ∀ i, x ≠ .drained i) (hpop : x ≠ .popped) :
    Ledger ((s.decided c op r).move c x) := by
  have hnew : c ∉ s.log.map (·.1) := by
    rw [h.logged]
    exact fun hne => hne hidle
  have hother : ∀ d, d ≠ c → ((s.decided c op r).move c x).place d = s.place d :=
    fun d hd => move_place_of_ne hd
  have hself : ((s.decided c op r).move c x).place c = x := move_place_self
  refine ⟨fun d => ?_, fun d hd => ?_, h.nodup_fst, h.nodup_snd, fun p => ?_, fun q => ?_,
    h.tracks.decide hnew hcall, fun q v hret hq => ?_⟩
  · change d ∈ (s.log ++ [(c, op, r)]).map (·.1) ↔ _
    rw [List.map_append, List.mem_append, h.logged]
    by_cases hd : d = c
    · rw [hd, hself]
      exact iff_of_true (Or.inr (List.mem_singleton_self c)) hx
    · rw [hother d hd]
      simp [hd]
  · by_cases hdc : d = c
    · rw [hdc]
      exact hlt
    · rw [hother d hdc] at hd
      exact h.fresh d hd
  · change p ∈ s.reads.map (·.2) ↔ _
    rw [h.read]
    by_cases hd : p = c
    · rw [hd, hself, hidle]
      simp [hread]
    · rw [hother p hd]
  · change q ∈ s.reads.map (·.1) ↔ _
    rw [h.drained]
    by_cases hd : q = c
    · rw [hd, hself, hidle]
      simp [hdr, hpop]
    · rw [hother q hd]
  · -- a call that returned is not this one
    have hqc : q ≠ c := by
      rintro rfl
      exact hnew (h.tracks.decided q _ hret)
    have hq' : s.Popped q := by
      unfold Lifo.Popped at hq ⊢
      rwa [hother q hqc] at hq
    obtain ⟨p, hp, hv⟩ := h.returned q v hret hq'
    refine ⟨p, hp, ?_⟩
    have hpc : p ≠ c := by
      rintro rfl
      unfold Lifo.Pushed at hv
      rw [hidle] at hv
      exact absurd hv (by simp [Place.pushed])
    unfold Lifo.Pushed
    rw [hother p hpc]
    exact hv

/-- The value of a push is read by a pop. -/
theorem Ledger.load (h : Ledger s) (hc : s.place c = .draining i)
    (hp : s.place (s.source i) = .taken i (s.value i)) : Ledger (s.load c i) := by
  have hne : s.source i ≠ c := by
    intro heq
    rw [heq, hc] at hp
    exact absurd hp (by simp)
  have hself : (s.load c i).place c = .drained i := Function.update_self ..
  have hsrc : (s.load c i).place (s.source i) = .read (s.value i) :=
    (Function.update_of_ne hne ..).trans (Function.update_self ..)
  have hother : ∀ d, d ≠ c → d ≠ s.source i → (s.load c i).place d = s.place d :=
    fun d hd hd' => (Function.update_of_ne hd ..).trans (Function.update_of_ne hd' ..)
  have hcases : ∀ d, (d = c) ∨ (d = s.source i) ∨ (d ≠ c ∧ d ≠ s.source i) := fun d => by tauto
  have hpushed : ∀ p v, s.Pushed p v → (s.load c i).Pushed p v := by
    intro p v hv
    unfold Lifo.Pushed at hv ⊢
    rcases hcases p with rfl | rfl | ⟨h1, h2⟩
    · rw [hc] at hv
      exact absurd hv (by simp [Place.pushed])
    · rw [hsrc]
      rw [hp] at hv
      exact hv
    · rw [hother p h1 h2]
      exact hv
  have hfst : (s.load c i).reads.map (·.1) = s.reads.map (·.1) ++ [c] := by
    change (s.reads ++ [(c, s.source i)]).map (·.1) = _
    rw [List.map_append]
    rfl
  have hsnd : (s.load c i).reads.map (·.2) = s.reads.map (·.2) ++ [s.source i] := by
    change (s.reads ++ [(c, s.source i)]).map (·.2) = _
    rw [List.map_append]
    rfl
  refine ⟨fun d => ?_, fun d hd => ?_, ?_, ?_, fun p => ?_, fun q => ?_, h.tracks,
    fun q v hret hq => ?_⟩
  · change d ∈ s.log.map (·.1) ↔ _
    rw [h.logged]
    rcases hcases d with rfl | rfl | ⟨h1, h2⟩
    · rw [hself, hc]
      simp
    · rw [hsrc, hp]
      simp
    · rw [hother d h1 h2]
  · refine h.fresh d ?_
    rcases hcases d with rfl | rfl | ⟨h1, h2⟩
    · rw [hc]
      simp
    · rw [hp]
      simp
    · rw [← hother d h1 h2]
      exact hd
  · rw [hfst]
    refine List.nodup_append.mpr ⟨h.nodup_fst, List.nodup_singleton _, fun a ha b hb => ?_⟩
    rw [List.mem_singleton.mp hb]
    rintro rfl
    rw [h.drained, hc] at ha
    simp at ha
  · rw [hsnd]
    refine List.nodup_append.mpr ⟨h.nodup_snd, List.nodup_singleton _, fun a ha b hb => ?_⟩
    rw [List.mem_singleton.mp hb]
    rintro rfl
    rw [h.read, hp] at ha
    simp at ha
  · rw [hsnd, List.mem_append, h.read, List.mem_singleton]
    rcases hcases p with rfl | rfl | ⟨h1, h2⟩
    · rw [hself, hc]
      simp [hne.symm]
    · rw [hsrc, hp]
      simp
    · rw [hother p h1 h2]
      simp [h2]
  · rw [hfst, List.mem_append, h.drained, List.mem_singleton]
    rcases hcases q with rfl | rfl | ⟨h1, h2⟩
    · rw [hself, hc]
      simp
    · rw [hsrc, hp]
      simp [hne]
    · rw [hother q h1 h2]
      simp [h1]
  · have hq' : s.Popped q := by
      unfold Lifo.Popped at hq ⊢
      rcases hcases q with rfl | rfl | ⟨h1, h2⟩
      · rw [hc]
        trivial
      · rw [hsrc] at hq
        exact absurd hq (by simp [Place.Pops])
      · rwa [hother q h1 h2] at hq
    obtain ⟨p, hmem, hv⟩ := h.returned q v hret hq'
    exact ⟨p, List.mem_append_left _ hmem, hpushed p v hv⟩

end Ledger

/-! ## The slots -/

section Slots

variable {size t i v : ℕ} {s : Lifo} {c p : Id}

/-- The pushes that wait for a slot. -/
theorem Slots.waitPush_mem (h : Slots size s) :
    (c, v) ∈ s.waitPush i ↔ s.place c = .pushWaits i v := by
  have hl := h.listed i c (.pushWaits i v)
  rw [mem_listing] at hl
  constructor
  · intro hm
    exact (hl.mp (Or.inl ⟨v, hm, rfl⟩)).1
  · intro hp
    rcases hl.mpr ⟨hp, rfl⟩ with ⟨w, hw, heq⟩ | ⟨-, heq⟩ | hm
    · cases heq
      exact hw
    · exact absurd heq (by simp)
    · cases hph : s.phase i <;> rw [hph] at hm <;> simp [Phase.places] at hm

/-- The pops that wait for it. -/
theorem Slots.waitPop_mem (h : Slots size s) :
    (∃ w, (c, w) ∈ s.waitPop i) ↔ s.place c = .popWaits i := by
  have hl := h.listed i c (.popWaits i)
  rw [mem_listing] at hl
  constructor
  · intro hm
    exact (hl.mp (Or.inr (Or.inl ⟨hm, rfl⟩))).1
  · intro hp
    rcases hl.mpr ⟨hp, rfl⟩ with ⟨w, hw, heq⟩ | ⟨hm, -⟩ | hm
    · exact absurd heq (by simp)
    · exact hm
    · cases hph : s.phase i <;> rw [hph] at hm <;> simp [Phase.places] at hm

/-- What the place of a call says about its slot. -/
theorem Slots.phase_mem (h : Slots size s) {x : Place} (hx : x.slot = some i)
    (hw : ∀ w, x ≠ .pushWaits i w) (hw' : x ≠ .popWaits i) :
    (c, x) ∈ (s.phase i).places i ↔ s.place c = x := by
  have hl := h.listed i c x
  rw [mem_listing] at hl
  constructor
  · intro hm
    exact (hl.mp (Or.inr (Or.inr hm))).1
  · intro hp
    rcases hl.mpr ⟨hp, hx⟩ with ⟨w, -, heq⟩ | ⟨-, heq⟩ | hm
    · exact absurd heq.symm (hw w)
    · exact absurd heq.symm hw'
    · exact hm

/-- The push that fills it. -/
theorem Slots.filling_iff (h : Slots size s) :
    s.phase i = .filling c v ↔ s.place c = .filling i v := by
  rw [← h.phase_mem (x := .filling i v) rfl (by simp) (by simp)]
  cases hph : s.phase i <;> simp [Phase.places, eq_comm]

/-- The push that has filled it. -/
theorem Slots.full_iff (h : Slots size s) : s.phase i = .full c v ↔ s.place c = .full i v := by
  rw [← h.phase_mem (x := .full i v) rfl (by simp) (by simp)]
  cases hph : s.phase i <;> simp [Phase.places, eq_comm]

/-- The pop that has emptied it. -/
theorem Slots.drained_iff (h : Slots size s) : s.phase i = .drained c ↔ s.place c = .drained i := by
  rw [← h.phase_mem (x := .drained i) rfl (by simp) (by simp)]
  cases hph : s.phase i <;> simp [Phase.places, eq_comm]

/-- The pop that empties it. -/
theorem Slots.draining_iff (h : Slots size s) :
    (∃ p v, s.phase i = .draining c p v) ↔ s.place c = .draining i := by
  rw [← h.phase_mem (x := .draining i) rfl (by simp) (by simp)]
  cases hph : s.phase i <;> simp [Phase.places, eq_comm]

/-- The value that it takes. -/
theorem Slots.taken_iff (h : Slots size s) :
    (∃ q, s.phase i = .draining q c v) ↔ s.place c = .taken i v := by
  rw [← h.phase_mem (x := .taken i v) rfl (by simp) (by simp)]
  cases hph : s.phase i <;> simp [Phase.places, eq_comm]

/-- A slot whose lock says empty. -/
theorem Slots.phase_of_empty (h : Slots size s) (hl : s.lock i = .empty) : s.phase i = .empty := by
  have hlock := h.lock i
  rw [hl] at hlock
  cases hph : s.phase i <;> rw [hph] at hlock <;> simp [Phase.lock] at hlock ⊢

/-- A slot whose lock says full. -/
theorem Slots.phase_of_full (h : Slots size s) (hl : s.lock i = .full) :
    ∃ p v, s.phase i = .full p v := by
  have hlock := h.lock i
  rw [hl] at hlock
  cases hph : s.phase i <;> rw [hph] at hlock <;> simp [Phase.lock] at hlock ⊢

/-- A call that is at no slot is done. -/
theorem Slots.move (h : Slots size s) (hc : (s.place c).slot = none) {x : Place}
    (hx : x.slot = none) : Slots size (s.move c x) := by
  refine ⟨h.bound, h.head_lt, h.lock, h.balance, h.listed.move hc hx, h.nodup_push, h.nodup_pop,
    fun d j hd => ?_, fun j p w hp => ?_⟩
  · by_cases hdc : d = c
    · rw [hdc, move_place_self, hx] at hd
      exact absurd hd (by simp)
    · rw [move_place_of_ne hdc] at hd
      exact h.slot_lt d j hd
  · by_cases hdc : p = c
    · rw [hdc, move_place_self] at hp
      rcases hp with rfl | rfl <;> exact absurd hx (by simp [Place.slot])
    · rw [move_place_of_ne hdc] at hp
      exact h.stored j p w hp

/-- A push reserves a slot. -/
theorem Slots.reservePush (h : Slots size s) (hc : s.place c = .idle) (hlt : s.head + 1 < size) :
    Slots size (s.reservePush c v) := by
  have hself : (s.reservePush c v).place c = .pushWaits s.head v := Function.update_self ..
  have hother : ∀ d, d ≠ c → (s.reservePush c v).place d = s.place d :=
    fun d hd => Function.update_of_ne hd ..
  have hwait : (s.reservePush c v).waitPush s.head = s.waitPush s.head ++ [(c, v)] :=
    Function.update_self ..
  have hwait' : ∀ j, j ≠ s.head → (s.reservePush c v).waitPush j = s.waitPush j :=
    fun j hj => Function.update_of_ne hj ..
  have hnew : c ∉ (s.waitPush s.head).map (·.1) := by
    intro hm
    obtain ⟨⟨d, w⟩, hmem, rfl⟩ := List.mem_map.mp hm
    have hd := h.waitPush_mem.mp hmem
    rw [hc] at hd
    exact absurd hd (by simp)
  refine ⟨h.bound, hlt, h.lock, fun j => ?_, ?_, fun j => ?_, h.nodup_pop, fun d j hd => ?_,
    fun j p w hp => ?_⟩
  · have hbal := h.balance j
    change ((s.reservePush c v).waitPush j).length + (s.phase j).held.length
      = (s.waitPop j).length + if j < s.head + 1 then 1 else 0
    by_cases hj : j = s.head
    · rw [hj] at hbal ⊢
      rw [hwait, List.length_append, List.length_singleton, if_pos (Nat.lt_succ_self _)]
      rw [if_neg (lt_irrefl _)] at hbal
      omega
    · rw [hwait' j hj, hbal]
      congr 1
      by_cases hjl : j < s.head
      · rw [if_pos hjl, if_pos (by omega)]
      · rw [if_neg hjl, if_neg (by omega)]
  · refine h.listed.update [c] (i := s.head) (fun j hj => ?_) (fun d hd => ?_) fun d hd => ?_
    · unfold Lifo.listing
      rw [hwait' j hj]
      rfl
    · have hdc : d ≠ c := fun heq => hd (heq ▸ List.mem_singleton_self c)
      refine ⟨hother d hdc, fun x => ?_⟩
      rw [mem_listing, mem_listing, hwait]
      simp [hdc, Lifo.reservePush, Lifo.move, Lifo.decided]
    · rw [List.mem_singleton.mp hd]
      refine ⟨fun x => ?_, Or.inr (by rw [hc]; rfl), Or.inl (by rw [hself]; rfl)⟩
      have hold : (c, x) ∉ s.listing s.head := by
        rw [h.listed, hc]
        rintro ⟨rfl, hx⟩
        exact absurd hx (by simp [Place.slot])
      rw [mem_listing] at hold ⊢
      rw [hself, hwait]
      constructor
      · rintro (⟨w, hm, rfl⟩ | hm | hm)
        · rcases List.mem_append.mp hm with hm | hm
          · exact absurd (Or.inl ⟨w, hm, rfl⟩) hold
          · cases List.mem_singleton.mp hm
            exact ⟨rfl, rfl⟩
        · exact absurd (Or.inr (Or.inl hm)) hold
        · exact absurd (Or.inr (Or.inr hm)) hold
      · rintro ⟨rfl, -⟩
        exact Or.inl ⟨v, List.mem_append_right _ (List.mem_singleton_self _), rfl⟩
  · by_cases hj : j = s.head
    · rw [hj, hwait, List.map_append]
      refine List.nodup_append.mpr ⟨h.nodup_push _, List.nodup_singleton _, fun a ha b hb => ?_⟩
      rw [List.mem_singleton.mp hb]
      rintro rfl
      exact hnew ha
    · rw [hwait' j hj]
      exact h.nodup_push j
  · by_cases hdc : d = c
    · rw [hdc, hself] at hd
      cases hd
      omega
    · rw [hother d hdc] at hd
      exact h.slot_lt d j hd
  · by_cases hdc : p = c
    · rw [hdc, hself] at hp
      exact absurd hp (by simp)
    · rw [hother p hdc] at hp
      exact h.stored j p w hp

/-- A pop reserves a slot. -/
theorem Slots.reservePop (h : Slots size s) (hc : s.place c = .idle) (hpos : s.head ≠ 0) :
    Slots size (s.reservePop c) := by
  have hself : (s.reservePop c).place c = .popWaits (s.head - 1) := Function.update_self ..
  have hother : ∀ d, d ≠ c → (s.reservePop c).place d = s.place d :=
    fun d hd => Function.update_of_ne hd ..
  have hwait : (s.reservePop c).waitPop (s.head - 1)
      = s.waitPop (s.head - 1) ++ [(c, s.stack.getLast?.getD 0)] := Function.update_self ..
  have hwait' : ∀ j, j ≠ s.head - 1 → (s.reservePop c).waitPop j = s.waitPop j :=
    fun j hj => Function.update_of_ne hj ..
  have hnew : c ∉ (s.waitPop (s.head - 1)).map (·.1) := by
    intro hm
    obtain ⟨⟨d, w⟩, hmem, rfl⟩ := List.mem_map.mp hm
    have hd := h.waitPop_mem.mp ⟨w, hmem⟩
    rw [hc] at hd
    exact absurd hd (by simp)
  have hlt := h.head_lt
  refine ⟨h.bound, (Nat.sub_le _ 1).trans_lt hlt, h.lock, fun j => ?_, ?_, h.nodup_push,
    fun j => ?_, fun d j hd => ?_, fun j p w hp => ?_⟩
  · have hbal := h.balance j
    change (s.waitPush j).length + (s.phase j).held.length
      = ((s.reservePop c).waitPop j).length + if j < s.head - 1 then 1 else 0
    by_cases hj : j = s.head - 1
    · rw [hj] at hbal ⊢
      rw [hwait, List.length_append, List.length_singleton, if_neg (lt_irrefl _)]
      rw [if_pos (by omega)] at hbal
      omega
    · rw [hwait' j hj, hbal]
      congr 1
      by_cases hjl : j < s.head - 1
      · rw [if_pos hjl, if_pos (by omega)]
      · rw [if_neg hjl, if_neg (by omega)]
  · refine h.listed.update [c] (i := s.head - 1) (fun j hj => ?_) (fun d hd => ?_) fun d hd => ?_
    · unfold Lifo.listing
      rw [hwait' j hj]
      rfl
    · have hdc : d ≠ c := fun heq => hd (heq ▸ List.mem_singleton_self c)
      refine ⟨hother d hdc, fun x => ?_⟩
      rw [mem_listing, mem_listing, hwait]
      simp [hdc, Lifo.reservePop, Lifo.move, Lifo.decided]
    · rw [List.mem_singleton.mp hd]
      refine ⟨fun x => ?_, Or.inr (by rw [hc]; rfl), Or.inl (by rw [hself]; rfl)⟩
      have hold : (c, x) ∉ s.listing (s.head - 1) := by
        rw [h.listed, hc]
        rintro ⟨rfl, hx⟩
        exact absurd hx (by simp [Place.slot])
      rw [mem_listing] at hold ⊢
      rw [hself, hwait]
      constructor
      · rintro (hm | ⟨⟨w, hm⟩, rfl⟩ | hm)
        · exact absurd (Or.inl hm) hold
        · exact ⟨rfl, rfl⟩
        · exact absurd (Or.inr (Or.inr hm)) hold
      · rintro ⟨rfl, -⟩
        exact Or.inr (Or.inl ⟨⟨_, List.mem_append_right _ (List.mem_singleton_self _)⟩, rfl⟩)
  · by_cases hj : j = s.head - 1
    · rw [hj, hwait, List.map_append]
      refine List.nodup_append.mpr ⟨h.nodup_pop _, List.nodup_singleton _, fun a ha b hb => ?_⟩
      rw [List.mem_singleton.mp hb]
      rintro rfl
      exact hnew ha
    · rw [hwait' j hj]
      exact h.nodup_pop j
  · by_cases hdc : d = c
    · rw [hdc, hself] at hd
      cases hd
      omega
    · rw [hother d hdc] at hd
      exact h.slot_lt d j hd
  · by_cases hdc : p = c
    · rw [hdc, hself] at hp
      exact absurd hp (by simp)
    · rw [hother p hdc] at hp
      exact h.stored j p w hp

/-- The state of slot `i` alone changes, by the calls at it. -/
theorem Slots.at_slot {s' : Lifo} (h : Slots size s) (touched : List Id) (hi : i < size)
    (hbound : s'.bound = s.bound) (hhead : s'.head = s.head)
    (hlock : ∀ j, s'.lock j = (s'.phase j).lock)
    (hphase : ∀ j, j ≠ i → s'.phase j = s.phase j)
    (hpush : ∀ j, j ≠ i → s'.waitPush j = s.waitPush j)
    (hpop : ∀ j, j ≠ i → s'.waitPop j = s.waitPop j)
    (hbal : (s'.waitPush i).length + (s'.phase i).held.length + (s.waitPop i).length
      = (s.waitPush i).length + (s.phase i).held.length + (s'.waitPop i).length)
    (hnodup : ((s'.waitPush i).map (·.1)).Nodup) (hnodup' : ((s'.waitPop i).map (·.1)).Nodup)
    (hsame : ∀ d ∉ touched, s'.place d = s.place d
      ∧ ∀ x, (d, x) ∈ s'.listing i ↔ (d, x) ∈ s.listing i)
    (htouch : ∀ d ∈ touched, (∀ x, (d, x) ∈ s'.listing i ↔ s'.place d = x ∧ x.slot = some i)
      ∧ (s.place d).slot = some i ∧ ((s'.place d).slot = some i ∨ (s'.place d).slot = none))
    (hstored : ∀ j p w, s'.place p = .full j w ∨ s'.place p = .taken j w →
      s'.value j = w ∧ s'.source j = p) : Slots size s' := by
  refine ⟨hbound.trans h.bound, hhead ▸ h.head_lt, hlock, fun j => ?_, ?_, fun j => ?_, fun j => ?_,
    fun d j hd => ?_, hstored⟩
  · have hb := h.balance j
    rw [hhead]
    by_cases hj : j = i
    · subst hj
      omega
    · rw [hphase j hj, hpush j hj, hpop j hj]
      exact hb
  · refine h.listed.update touched (i := i) (fun j hj => ?_) hsame fun d hd => ?_
    · unfold Lifo.listing
      rw [hphase j hj, hpush j hj, hpop j hj]
    · obtain ⟨h1, h2, h3⟩ := htouch d hd
      exact ⟨h1, Or.inl h2, h3⟩
  · by_cases hj : j = i
    · rw [hj]
      exact hnodup
    · rw [hpush j hj]
      exact h.nodup_push j
  · by_cases hj : j = i
    · rw [hj]
      exact hnodup'
    · rw [hpop j hj]
      exact h.nodup_pop j
  · by_cases hdt : d ∈ touched
    · rcases (htouch d hdt).2.2 with hs | hs
      · rw [hs] at hd
        cases hd
        exact hi
      · rw [hs] at hd
        exact absurd hd (by simp)
    · rw [(hsame d hdt).1] at hd
      exact h.slot_lt d j hd

/-- The lock follows the phase. -/
theorem update_lock (h : Slots size s) (l : Lock) (x : Phase) (hx : l = x.lock) (j : ℕ) :
    Function.update s.lock i l j = (Function.update s.phase i x j).lock := by
  by_cases hj : j = i
  · rw [hj, Function.update_self, Function.update_self, hx]
  · rw [Function.update_of_ne hj, Function.update_of_ne hj]
    exact h.lock j

/-- A push takes the lock. -/
theorem Slots.lockPush (h : Slots size s) (hc : s.place c = .pushWaits i v)
    (hl : s.lock i = .empty) : Slots size (s.lockPush c v i) := by
  have hph := h.phase_of_empty hl
  have hself : (s.lockPush c v i).place c = .filling i v := Function.update_self ..
  have hother : ∀ d, d ≠ c → (s.lockPush c v i).place d = s.place d :=
    fun d hd => Function.update_of_ne hd ..
  have hwait : (s.lockPush c v i).waitPush i = (s.waitPush i).filter fun w => w.1 ≠ c :=
    Function.update_self ..
  have hphase : (s.lockPush c v i).phase i = .filling c v := Function.update_self ..
  refine h.at_slot [c] (h.slot_lt c i (by rw [hc]; rfl)) rfl rfl
    (fun j => update_lock h .busy (.filling c v) rfl j) (fun j hj => Function.update_of_ne hj ..)
    (fun j hj => Function.update_of_ne hj ..) (fun _ _ => rfl) ?_ ?_ (h.nodup_pop i)
    (fun d hd => ?_) (fun d hd => ?_) fun j p w hp => ?_
  · have hlen := length_filter_ne (h.nodup_push i) (h.waitPush_mem.mpr hc)
    rw [hwait, hphase, hph]
    change _ + 1 + _ = _ + 0 + (s.waitPop i).length
    omega
  · rw [hwait]
    exact nodup_filter_ne (h.nodup_push i)
  · have hdc : d ≠ c := fun heq => hd (heq ▸ List.mem_singleton_self c)
    refine ⟨hother d hdc, fun x => ?_⟩
    rw [mem_listing, mem_listing, hwait, hphase, hph]
    simp [hdc, Phase.places, Lifo.lockPush, Lifo.move]
  · rw [List.mem_singleton.mp hd]
    refine ⟨fun x => ?_, by rw [hc]; rfl, Or.inl (by rw [hself]; rfl)⟩
    have hpop : ¬ ∃ w, (c, w) ∈ s.waitPop i := by
      rw [h.waitPop_mem, hc]
      simp
    rw [mem_listing, hself, hwait, hphase]
    constructor
    · rintro (⟨w, hm, rfl⟩ | ⟨hm, -⟩ | hm)
      · exact absurd (List.mem_filter.mp hm).2 (by simp)
      · exact absurd hm hpop
      · cases List.mem_singleton.mp hm
        exact ⟨rfl, rfl⟩
    · rintro ⟨rfl, -⟩
      exact Or.inr (Or.inr (List.mem_singleton_self _))
  · by_cases hdc : p = c
    · rw [hdc, hself] at hp
      exact absurd hp (by simp)
    · rw [hother p hdc] at hp
      exact h.stored j p w hp

/-- A push stores its value. -/
theorem Slots.store (h : Slots size s) (hc : s.place c = .filling i v) :
    Slots size (s.store c v i) := by
  refine ⟨h.bound, h.head_lt, h.lock, h.balance, h.listed, h.nodup_push, h.nodup_pop, h.slot_lt,
    fun j p w hp => ?_⟩
  have hji : j ≠ i := by
    rintro rfl
    have hph := h.filling_iff.mpr hc
    rcases hp with hp | hp
    · have hfull := h.full_iff.mpr hp
      rw [hph] at hfull
      exact absurd hfull (by simp)
    · obtain ⟨q, hq⟩ := h.taken_iff.mpr hp
      rw [hph] at hq
      exact absurd hq (by simp)
  obtain ⟨h1, h2⟩ := h.stored j p w hp
  exact ⟨(Function.update_of_ne hji ..).trans h1, (Function.update_of_ne hji ..).trans h2⟩

/-- A push gives up the lock. -/
theorem Slots.unlockPush (h : Slots size s) (hc : s.place c = .filling i v) (hv : s.value i = v)
    (hsrc : s.source i = c) : Slots size (s.unlockPush c v i) := by
  have hph := h.filling_iff.mpr hc
  have hself : (s.unlockPush c v i).place c = .full i v := Function.update_self ..
  have hother : ∀ d, d ≠ c → (s.unlockPush c v i).place d = s.place d :=
    fun d hd => Function.update_of_ne hd ..
  have hphase : (s.unlockPush c v i).phase i = .full c v := Function.update_self ..
  refine h.at_slot [c] (h.slot_lt c i (by rw [hc]; rfl)) rfl rfl
    (fun j => update_lock h .full (.full c v) rfl j) (fun j hj => Function.update_of_ne hj ..) (fun _ _ => rfl)
    (fun _ _ => rfl) ?_ (h.nodup_push i) (h.nodup_pop i) (fun d hd => ?_) (fun d hd => ?_)
    fun j p w hp => ?_
  · rw [hphase, hph]
    rfl
  · have hdc : d ≠ c := fun heq => hd (heq ▸ List.mem_singleton_self c)
    refine ⟨hother d hdc, fun x => ?_⟩
    rw [mem_listing, mem_listing, hphase, hph]
    simp [hdc, Phase.places, Lifo.unlockPush, Lifo.move]
  · rw [List.mem_singleton.mp hd]
    refine ⟨fun x => ?_, by rw [hc]; rfl, Or.inl (by rw [hself]; rfl)⟩
    have hpush : ∀ w, (c, w) ∉ s.waitPush i := fun w => by
      rw [h.waitPush_mem, hc]
      simp
    have hpop : ¬ ∃ w, (c, w) ∈ s.waitPop i := by
      rw [h.waitPop_mem, hc]
      simp
    rw [mem_listing, hself, hphase]
    constructor
    · rintro (⟨w, hm, rfl⟩ | ⟨hm, -⟩ | hm)
      · exact absurd hm (hpush w)
      · exact absurd hm hpop
      · cases List.mem_singleton.mp hm
        exact ⟨rfl, rfl⟩
    · rintro ⟨rfl, -⟩
      exact Or.inr (Or.inr (List.mem_singleton_self _))
  · by_cases hdc : p = c
    · rw [hdc, hself] at hp
      rcases hp with heq | heq <;> cases heq
      rw [hdc]
      exact ⟨hv, hsrc⟩
    · rw [hother p hdc] at hp
      exact h.stored j p w hp

/-- A pop takes the lock. -/
theorem Slots.lockPop (h : Slots size s) (hc : s.place c = .popWaits i) (hl : s.lock i = .full) :
    Slots size (s.lockPop c i) := by
  obtain ⟨p, v, hph⟩ := h.phase_of_full hl
  have hp := h.full_iff.mp hph
  have hpc : p ≠ c := by
    rintro rfl
    rw [hc] at hp
    exact absurd hp (by simp)
  have htake : s.take i = s.move p (.taken i v) := by
    unfold Lifo.take
    rw [hph]
  have hplace : (s.lockPop c i).place = ((s.move p (.taken i v)).move c (.draining i)).place := by
    rw [← htake]
    rfl
  have hself : (s.lockPop c i).place c = .draining i := by
    rw [hplace, move_place_self]
  have hval : (s.lockPop c i).place p = .taken i v := by
    rw [hplace, move_place_of_ne hpc, move_place_self]
  have hother : ∀ d, d ≠ c → d ≠ p → (s.lockPop c i).place d = s.place d := fun d h1 h2 => by
    rw [hplace, move_place_of_ne h1, move_place_of_ne h2]
  have hwait : (s.lockPop c i).waitPop i = (s.waitPop i).filter fun w => w.1 ≠ c :=
    Function.update_self ..
  have hpush : (s.lockPop c i).waitPush = s.waitPush := by
    unfold Lifo.lockPop
    rw [htake]
    rfl
  have hphase : (s.lockPop c i).phase i = .draining c p v := by
    refine (Function.update_self ..).trans ?_
    rw [hph]
    rfl
  have hmem : ∀ d x, (d, x) ∈ ((s.lockPop c i).phase i).places i
      ↔ (d, x) = (c, .draining i) ∨ (d, x) = (p, .taken i v) := by
    intro d x
    rw [hphase]
    exact List.mem_pair
  refine h.at_slot [c, p] (h.slot_lt c i (by rw [hc]; rfl)) ?_ ?_
    (fun j => ?_) (fun j hj => Function.update_of_ne hj ..) (fun j _ => by rw [hpush])
    (fun j hj => Function.update_of_ne hj ..) ?_ (by rw [hpush]; exact h.nodup_push i) ?_
    (fun d hd => ?_) (fun d hd => ?_) fun j d w hd => ?_
  · unfold Lifo.lockPop
    rw [htake]
    rfl
  · unfold Lifo.lockPop
    rw [htake]
    rfl
  · refine update_lock h .busy ((s.phase i).drain c) ?_ j
    rw [hph]
    rfl
  · obtain ⟨w, hm⟩ := h.waitPop_mem.mpr hc
    have hlen := length_filter_ne (h.nodup_pop i) hm
    rw [hwait, hphase, hph, hpush]
    change _ + 0 + _ = _ + 1 + _
    omega
  · rw [hwait]
    exact nodup_filter_ne (h.nodup_pop i)
  · have hdc : d ≠ c := fun heq => hd (by rw [heq]; exact List.mem_cons_self)
    have hdp : d ≠ p := fun heq => hd (by rw [heq]; simp)
    refine ⟨hother d hdc hdp, fun x => ?_⟩
    rw [mem_listing, mem_listing, hwait, hpush, hmem, hph]
    simp [hdc, hdp, Phase.places]
  · rcases List.mem_pair.mp hd with rfl | rfl
    · refine ⟨fun x => ?_, by rw [hc]; rfl, Or.inl (by rw [hself]; rfl)⟩
      have hnot : ∀ w, (d, w) ∉ s.waitPush i := fun w => by
        rw [h.waitPush_mem, hc]
        simp
      rw [mem_listing, hself, hwait, hpush, hmem]
      constructor
      · rintro (⟨w, hm, -⟩ | ⟨⟨w, hm⟩, -⟩ | hm | hm)
        · exact absurd hm (hnot w)
        · exact absurd (List.mem_filter.mp hm).2 (by simp)
        · cases hm
          exact ⟨rfl, rfl⟩
        · exact absurd (congrArg Prod.fst hm).symm hpc
      · rintro ⟨rfl, -⟩
        exact Or.inr (Or.inr (Or.inl rfl))
    · refine ⟨fun x => ?_, by rw [hp]; rfl, Or.inl (by rw [hval]; rfl)⟩
      have hnot : ∀ w, (d, w) ∉ s.waitPush i := fun w => by
        rw [h.waitPush_mem, hp]
        simp
      have hnot' : ¬ ∃ w, (d, w) ∈ s.waitPop i := by
        rw [h.waitPop_mem, hp]
        simp
      rw [mem_listing, hval, hwait, hpush, hmem]
      constructor
      · rintro (⟨w, hm, -⟩ | ⟨⟨w, hm⟩, -⟩ | hm | hm)
        · exact absurd hm (hnot w)
        · exact absurd ⟨w, (List.mem_filter.mp hm).1⟩ hnot'
        · exact absurd (congrArg Prod.fst hm) hpc
        · cases hm
          exact ⟨rfl, rfl⟩
      · rintro ⟨rfl, -⟩
        exact Or.inr (Or.inr (Or.inr rfl))
  · have hsame : (s.lockPop c i).value j = s.value j ∧ (s.lockPop c i).source j = s.source j := by
      unfold Lifo.lockPop
      rw [htake]
      exact ⟨rfl, rfl⟩
    rw [hsame.1, hsame.2]
    by_cases hdc : d = c
    · rw [hdc, hself] at hd
      exact absurd hd (by simp)
    · by_cases hdp : d = p
      · rw [hdp, hval] at hd
        rw [hdp]
        rcases hd with heq | heq <;> cases heq
        exact h.stored i p v (Or.inl hp)
      · rw [hother d hdc hdp] at hd
        exact h.stored j d w hd

/-- What a pop finds in the slot that it has locked. -/
theorem Slots.source_of_draining (h : Slots size s) (hc : s.place c = .draining i) :
    s.place (s.source i) = .taken i (s.value i) ∧ s.phase i = .draining c (s.source i) (s.value i) := by
  obtain ⟨p, v, hph⟩ := h.draining_iff.mpr hc
  have hp := h.taken_iff.mp ⟨c, hph⟩
  obtain ⟨hv, hs⟩ := h.stored i p v (Or.inr hp)
  rw [hv, hs]
  exact ⟨hp, hph⟩

/-- A pop loads the value. -/
theorem Slots.load (h : Slots size s) (hc : s.place c = .draining i) : Slots size (s.load c i) := by
  obtain ⟨hp, hph⟩ := h.source_of_draining hc
  have hpc : s.source i ≠ c := by
    intro heq
    rw [heq, hc] at hp
    exact absurd hp (by simp)
  have hself : (s.load c i).place c = .drained i := Function.update_self ..
  have hval : (s.load c i).place (s.source i) = .read (s.value i) :=
    (Function.update_of_ne hpc ..).trans (Function.update_self ..)
  have hother : ∀ d, d ≠ c → d ≠ s.source i → (s.load c i).place d = s.place d :=
    fun d h1 h2 => (Function.update_of_ne h1 ..).trans (Function.update_of_ne h2 ..)
  have hphase : (s.load c i).phase i = .drained c := Function.update_self ..
  refine h.at_slot [c, s.source i] (h.slot_lt c i (by rw [hc]; rfl)) rfl rfl (fun j => ?_)
    (fun j hj => Function.update_of_ne hj ..) (fun _ _ => rfl) (fun _ _ => rfl) ?_ (h.nodup_push i)
    (h.nodup_pop i) (fun d hd => ?_) (fun d hd => ?_) fun j d w hd => ?_
  · have hb : s.lock i = .busy := by
      rw [h.lock, hph]
      rfl
    change s.lock j = (Function.update s.phase i (.drained c) j).lock
    by_cases hj : j = i
    · rw [hj, Function.update_self, hb]
      rfl
    · rw [Function.update_of_ne hj]
      exact h.lock j
  · rw [hphase, hph]
    rfl
  · have hdc : d ≠ c := fun heq => hd (by rw [heq]; exact List.mem_cons_self)
    have hdp : d ≠ s.source i := fun heq => hd (by rw [heq]; simp)
    refine ⟨hother d hdc hdp, fun x => ?_⟩
    rw [mem_listing, mem_listing, hphase, hph]
    simp [hdc, hdp, Phase.places, Lifo.load, Lifo.move]
  · have hnot : ∀ w, (d, w) ∉ s.waitPush i := by
      intro w hm
      rw [h.waitPush_mem] at hm
      rcases List.mem_pair.mp hd with rfl | rfl
      · rw [hc] at hm
        exact absurd hm (by simp)
      · rw [hp] at hm
        exact absurd hm (by simp)
    have hnot' : ¬ ∃ w, (d, w) ∈ s.waitPop i := by
      intro hm
      rw [h.waitPop_mem] at hm
      rcases List.mem_pair.mp hd with rfl | rfl
      · rw [hc] at hm
        exact absurd hm (by simp)
      · rw [hp] at hm
        exact absurd hm (by simp)
    have hlist : ∀ x, (d, x) ∈ (s.load c i).listing i ↔ (d, x) = (c, .drained i) := by
      intro x
      rw [mem_listing, hphase]
      constructor
      · rintro (⟨w, hm, -⟩ | ⟨hm, -⟩ | hm)
        · exact absurd hm (hnot w)
        · exact absurd hm hnot'
        · exact List.mem_singleton.mp hm
      · intro heq
        exact Or.inr (Or.inr (List.mem_singleton.mpr heq))
    rcases List.mem_pair.mp hd with rfl | rfl
    · refine ⟨fun x => ?_, by rw [hc]; rfl, Or.inl (by rw [hself]; rfl)⟩
      rw [hlist, hself]
      constructor
      · intro heq
        cases heq
        exact ⟨rfl, rfl⟩
      · rintro ⟨rfl, -⟩
        rfl
    · refine ⟨fun x => ?_, by rw [hp]; rfl, Or.inr (by rw [hval]; rfl)⟩
      rw [hlist, hval]
      constructor
      · intro heq
        exact absurd (congrArg Prod.fst heq) hpc
      · rintro ⟨rfl, hx⟩
        exact absurd hx (by simp [Place.slot])
  · by_cases hdc : d = c
    · rw [hdc, hself] at hd
      exact absurd hd (by simp)
    · by_cases hdp : d = s.source i
      · rw [hdp, hval] at hd
        exact absurd hd (by simp)
      · rw [hother d hdc hdp] at hd
        exact h.stored j d w hd

/-- A pop gives up the lock. -/
theorem Slots.unlockPop (h : Slots size s) (hc : s.place c = .drained i) :
    Slots size (s.unlockPop c i) := by
  have hph := h.drained_iff.mpr hc
  have hself : (s.unlockPop c i).place c = .popped := Function.update_self ..
  have hother : ∀ d, d ≠ c → (s.unlockPop c i).place d = s.place d :=
    fun d hd => Function.update_of_ne hd ..
  have hphase : (s.unlockPop c i).phase i = .empty := Function.update_self ..
  refine h.at_slot [c] (h.slot_lt c i (by rw [hc]; rfl)) rfl rfl
    (fun j => update_lock h .empty .empty rfl j) (fun j hj => Function.update_of_ne hj ..)
    (fun _ _ => rfl) (fun _ _ => rfl) ?_ (h.nodup_push i) (h.nodup_pop i) (fun d hd => ?_)
    (fun d hd => ?_) fun j p w hp => ?_
  · rw [hphase, hph]
    rfl
  · have hdc : d ≠ c := fun heq => hd (heq ▸ List.mem_singleton_self c)
    refine ⟨hother d hdc, fun x => ?_⟩
    rw [mem_listing, mem_listing, hphase, hph]
    simp [hdc, Phase.places, Lifo.unlockPop, Lifo.move]
  · rw [List.mem_singleton.mp hd]
    refine ⟨fun x => ?_, by rw [hc]; rfl, Or.inr (by rw [hself]; rfl)⟩
    have hpush : ∀ w, (c, w) ∉ s.waitPush i := fun w => by
      rw [h.waitPush_mem, hc]
      simp
    have hpop : ¬ ∃ w, (c, w) ∈ s.waitPop i := by
      rw [h.waitPop_mem, hc]
      simp
    rw [mem_listing, hself, hphase]
    constructor
    · rintro (⟨w, hm, -⟩ | ⟨hm, -⟩ | hm)
      · exact absurd hm (hpush w)
      · exact absurd hm hpop
      · exact absurd hm List.not_mem_nil
    · rintro ⟨rfl, hx⟩
      exact absurd hx (by simp [Place.slot])
  · by_cases hdc : p = c
    · rw [hdc, hself] at hp
      exact absurd hp (by simp)
    · rw [hother p hdc] at hp
      exact h.stored j p w hp

end Slots

end Clifo
