/-
# Maps whose entries are cells that are claimed before they are emptied

A map from keys to values, kept in cells.  A cell is live from the moment it is put in until a
removal claims it; the removal takes the value out later.  In between the cell no longer
counts, yet calls that met it while it was live may still read it and write to it.

* `mapSpec` — the map as a sequential object;
* `Good` — the order of the calls so far explains what the cells hold: a removal is decided at
  its claim, with the value of that moment as its answer;
* `Good.read`, `Good.update` — a call that comes too late is put in front of the claim, and the
  answer of the removal is corrected;
* `Good.miss` — a call that does not meet its key has its place behind a claim, or where it
  began.

Nothing here refers to a particular program.
-/
import Ssr.LateDecisions

open Linearizability

namespace ClaimedCells

/-! ## The map -/

/-- A call: its thread, and its number among the calls of the thread. -/
abbrev Call := ℕ × ℕ

/-- When a write takes place: where the key has no value, where it has one, or always. -/
inductive Mode where
  | add
  | replace
  | put
  deriving DecidableEq, Repr

/-- The operations. -/
inductive Op (κ : Type*) where
  | get (key : κ)
  | write (mode : Mode) (key : κ) (new : ℕ)
  | remove (key : κ)
  deriving DecidableEq, Repr

variable {κ : Type*}

/-- The key of an operation. -/
def Op.key : Op κ → κ
  | .get key | .write _ key _ | .remove key => key

/-- The operation changes nothing where its key has no value. -/
def Op.Passive : Op κ → Prop
  | .write mode _ _ => mode = .replace
  | .get _ | .remove _ => True

/-- The operation changes nothing where its key has a value. -/
def Op.Reads : Op κ → Prop
  | .get _ => True
  | .write mode _ _ => mode = .add
  | .remove _ => False

/-- What the operation leaves for its key, which had the value `v`. -/
def Op.leaves (v : ℕ) : Op κ → ℕ
  | .get _ => v
  | .write mode _ new =>
    if v = 0 then if mode = .replace then v else new else if mode = .add then v else new
  | .remove _ => 0

/-- The map: `0` stands for no value.  Every operation answers with the value before it. -/
def mapSpec (κ : Type*) [DecidableEq κ] : Spec (Op κ) ℕ (κ → ℕ) where
  init := fun _ => 0
  apply m o := (m o.key, Function.update m o.key (o.leaves (m o.key)))

section Spec

variable [DecidableEq κ] {m : κ → ℕ} {o : Op κ}

theorem apply_same (h : o.leaves (m o.key) = m o.key) : (mapSpec κ).apply m o = (m o.key, m) := by
  simp only [mapSpec]
  rw [h, Function.update_eq_self]

theorem apply_passive (ho : o.Passive) (hm : m o.key = 0) : (mapSpec κ).apply m o = (0, m) := by
  rw [← hm]
  refine apply_same ?_
  rw [hm]
  cases o with
  | get | remove => rfl
  | write mode key new =>
    have hmode : mode = .replace := ho
    simp [Op.leaves, hmode]

theorem apply_reads (ho : o.Reads) (hm : m o.key ≠ 0) : (mapSpec κ).apply m o = (m o.key, m) := by
  refine apply_same ?_
  cases o with
  | get => rfl
  | remove => exact ho.elim
  | write mode key new =>
    have hmode : mode = .add := ho
    simp only [Op.leaves, if_neg hm, if_pos hmode]

end Spec

/-! ## Cells and decisions -/

/-- What the memory says: the key and the value of each cell, and which cells are live. -/
@[ext] structure View (κ : Type*) where
  key : ℕ → κ
  val : ℕ → ℕ
  live : ℕ → Prop

/-- A history of the map. -/
abbrev History (κ : Type*) := List (Event Call (Op κ) ℕ)

/-- The order of the calls, and who claimed which cell. -/
structure Decisions (κ : Type*) where
  log : List (Call × Op κ × ℕ)
  claim : ℕ → Option Call

/-- The live cells hold what the map holds. -/
def Shows (V : View κ) (m : κ → ℕ) : Prop :=
  (∀ n, V.live n → m (V.key n) = V.val n) ∧ ∀ k, m k ≠ 0 → ∃ n, V.live n ∧ V.key n = k

/-- The order explains the history and the cells. -/
structure Good [DecidableEq κ] (V : View κ) (H : History κ) (D : Decisions κ) : Prop where
  tracks : Tracks H D.log
  answered : ∀ r v, .ret r v ∈ H → ∃ o, (r, o, v) ∈ D.log
  legal : ∃ m, (mapSpec κ).run (mapSpec κ).init D.log = some m ∧ Shows V m
  unique : ∀ n n', V.live n → V.live n' → V.key n = V.key n' → n = n'
  filled : ∀ n, V.live n → V.val n ≠ 0
  free : ∀ n, V.live n → D.claim n = none
  /-- The removal answers with what the cell holds, until it has emptied it. -/
  claimed : ∀ n c, D.claim n = some c → ∃ v, (c, .remove (V.key n), v) ∈ D.log ∧ v ≠ 0
    ∧ (V.val n ≠ 0 → V.val n = v ∧ ∀ w, .ret c w ∉ H)
  once : ∀ n n' c, D.claim n = some c → D.claim n' = some c → n = n'

/-- Whoever claimed the cell comes behind all that returned before call `r`. -/
def Seen (H : History κ) (D : Decisions κ) (r : Call) (n : ℕ) : Prop :=
  ∀ c, D.claim n = some c → Late H D.log r c

/-- Call `r` has not been decided; where it began its key may have had no value. -/
structure Undecided (H : History κ) (D : Decisions κ) (r : Call) (o : Op κ) : Prop where
  called : .call r o ∈ H
  running : ∀ v, .ret r v ∉ H
  entry : ∀ e ∈ D.log, e.1 = r → e = (r, o, 0) ∧ o.Passive

/-- There is a place for call `r` to find nothing, unless it comes to a live cell with `P`. -/
def Seeks (V : View κ) (H : History κ) (D : Decisions κ) (r : Call) (o : Op κ) (P : ℕ → Prop) :
    Prop :=
  (r, o, 0) ∈ D.log
    ∨ ∃ n, V.key n = o.key ∧ Seen H D r n ∧ (D.claim n ≠ none ∨ V.live n ∧ P n)

/-- Call `r` has been decided with answer `v`. -/
structure Decided (V : View κ) (H : History κ) (D : Decisions κ) (r : Call) (o : Op κ) (v : ℕ) :
    Prop where
  entry : (r, o, v) ∈ D.log
  running : ∀ v, .ret r v ∉ H
  emptied : ∀ n, D.claim n = some r → V.val n = 0

/-- What the calls of thread `u` may rely on. -/
structure Rely (u : ℕ) (V : View κ) (H : History κ) (D : Decisions κ) (V' : View κ)
    (H' : History κ) (D' : Decisions κ) : Prop where
  stay : ∀ e ∈ D.log, e.1.1 = u → e ∈ D'.log ∨ ∃ n, D.claim n = some e.1 ∧ V.val n ≠ 0
  come : ∀ e ∈ D'.log, e.1.1 = u → e ∈ D.log ∨ ∃ n, D.claim n = some e.1 ∧ V.val n ≠ 0
  seen : ∀ r n, r.1 = u → (∃ o, .call r o ∈ H) → Seen H D r n → Seen H' D' r n
  claim : ∀ n c, D.claim n = some c → D'.claim n = some c
  own : ∀ n c, c.1 = u → D'.claim n = some c → D.claim n = some c
  emptied : ∀ n, D.claim n ≠ none → V.val n = 0 → V'.val n = 0
  kept : ∀ n c, c.1 = u → D.claim n = some c → V.val n ≠ 0 → V'.val n ≠ 0
  live : ∀ n, V.live n → V'.live n ∨ D'.claim n ≠ none
  key : ∀ n, V.live n ∨ D.claim n ≠ none → V'.key n = V.key n
  called : ∀ r o, .call r o ∈ H → .call r o ∈ H'
  returned : ∀ r v, r.1 = u → .ret r v ∈ H' → .ret r v ∈ H

section Rely

variable {u : ℕ} {V V' V'' : View κ} {H H' H'' : History κ} {D D' D'' : Decisions κ} {r : Call}
  {o : Op κ} {n v : ℕ}

theorem Rely.refl (u : ℕ) (V : View κ) (H : History κ) (D : Decisions κ) : Rely u V H D V H D where
  stay := fun _ he _ => .inl he
  come := fun _ he _ => .inl he
  seen := fun _ _ _ _ hs => hs
  claim := fun _ _ hc => hc
  own := fun _ _ _ hc => hc
  emptied := fun _ _ hv => hv
  kept := fun _ _ _ _ hv => hv
  live := fun _ hl => .inl hl
  key := fun _ _ => rfl
  called := fun _ _ hc => hc
  returned := fun _ _ _ hr => hr

theorem Rely.claimed (h : Rely u V H D V' H' D') (hn : D.claim n ≠ none) : D'.claim n ≠ none := by
  obtain ⟨c, hc⟩ := Option.ne_none_iff_exists'.mp hn
  rw [h.claim n c hc]
  exact Option.some_ne_none c

theorem Rely.trans (h : Rely u V H D V' H' D') (h' : Rely u V' H' D' V'' H'' D'') :
    Rely u V H D V'' H'' D'' where
  stay := by
    intro e he hu
    rcases h.stay e he hu with he' | hn
    · rcases h'.stay e he' hu with he'' | ⟨n, hc, hv⟩
      · exact .inl he''
      · have hc' := h.own n e.1 hu hc
        exact .inr ⟨n, hc', fun h0 => hv (h.emptied n (by simp [hc']) h0)⟩
    · exact .inr hn
  come := by
    intro e he hu
    rcases h'.come e he hu with he' | ⟨n, hc, hv⟩
    · exact h.come e he' hu
    · have hc' := h.own n e.1 hu hc
      exact .inr ⟨n, hc', fun h0 => hv (h.emptied n (by simp [hc']) h0)⟩
  seen := fun r n hr ⟨o, hc⟩ hs => h'.seen r n hr ⟨o, h.called r o hc⟩ (h.seen r n hr ⟨o, hc⟩ hs)
  claim := fun n c hc => h'.claim n c (h.claim n c hc)
  own := fun n c hu hc => h.own n c hu (h'.own n c hu hc)
  emptied := fun n hn hv => h'.emptied n (h.claimed hn) (h.emptied n hn hv)
  kept := fun n c hu hc hv => h'.kept n c hu (h.claim n c hc) (h.kept n c hu hc hv)
  live := by
    intro n hl
    rcases h.live n hl with hl | hc
    · exact h'.live n hl
    · exact .inr (h'.claimed hc)
  key := by
    intro n hn
    rw [h'.key n, h.key n hn]
    rcases hn with hl | hc
    · exact h.live n hl
    · exact .inr (h.claimed hc)
  called := fun r o hc => h'.called r o (h.called r o hc)
  returned := fun r v hu hr => h.returned r v hu (h'.returned r v hu hr)

theorem Seen.stable (hr : Rely r.1 V H D V' H' D') (hc : .call r o ∈ H) (hs : Seen H D r n) :
    Seen H' D' r n :=
  hr.seen r n rfl ⟨o, hc⟩ hs

theorem Decided.stable (hr : Rely r.1 V H D V' H' D') (hd : Decided V H D r o v) :
    Decided V' H' D' r o v where
  entry := by
    refine (hr.stay _ hd.entry rfl).resolve_right ?_
    rintro ⟨n, hc, hv⟩
    exact hv (hd.emptied n hc)
  running := fun v hv => hd.running v (hr.returned r v rfl hv)
  emptied := by
    intro n hc
    have hc' := hr.own n r rfl hc
    exact hr.emptied n (by simp [hc']) (hd.emptied n hc')

theorem Seeks.imp {P P' : ℕ → Prop} (hs : Seeks V H D r o P)
    (hP : ∀ n, V.live n → V.key n = o.key → P n → P' n) : Seeks V H D r o P' := by
  rcases hs with hs | ⟨n, hk, hsn, hn⟩
  · exact .inl hs
  · exact .inr ⟨n, hk, hsn, hn.imp id fun ⟨hl, hp⟩ => ⟨hl, hP n hl hk hp⟩⟩

end Rely

/-! ## What other threads leave as it is -/

section Stable

variable [DecidableEq κ] {V V' : View κ} {H H' : History κ} {D D' : Decisions κ} {r : Call}
  {o : Op κ} {n : ℕ}

/-- A call that has not been decided has claimed nothing. -/
theorem Undecided.claim_ne (hg : Good V H D) (hp : Undecided H D r o) : D.claim n ≠ some r := by
  intro hc
  obtain ⟨v, hv, hne, -⟩ := hg.claimed n r hc
  have heq := (hp.entry _ hv rfl).1
  exact hne (congrArg (fun e => e.2.2) heq)

theorem Undecided.stable (hg : Good V H D) (hr : Rely r.1 V H D V' H' D') (hp : Undecided H D r o) :
    Undecided H' D' r o where
  called := hr.called r o hp.called
  running := fun v hv => hp.running v (hr.returned r v rfl hv)
  entry := by
    rintro e he rfl
    rcases hr.come e he rfl with he | ⟨n, hc, -⟩
    · exact hp.entry e he rfl
    · exact absurd hc (hp.claim_ne hg)

theorem Seeks.stable {P P' : ℕ → Prop} (hg : Good V H D) (hr : Rely r.1 V H D V' H' D')
    (hp : Undecided H D r o) (hs : Seeks V H D r o P)
    (hP : ∀ n, V.live n → V'.live n → V.key n = o.key → P n → P' n) : Seeks V' H' D' r o P' := by
  rcases hs with hs | ⟨n, hk, hsn, hn⟩
  · refine .inl ((hr.stay _ hs rfl).resolve_right ?_)
    rintro ⟨n, hc, -⟩
    exact hp.claim_ne hg hc
  · refine .inr ⟨n, (hr.key n ?_).trans hk, hsn.stable hr hp.called, ?_⟩
    · exact hn.symm.imp (fun h => h.1) id
    · rcases hn with hc | ⟨hl, hPn⟩
      · exact .inl (hr.claimed hc)
      · rcases hr.live n hl with hl' | hc
        · exact .inr ⟨hl', hP n hl hl' hk hPn⟩
        · exact .inl hc

end Stable

/-! ## The order without a call -/

section Moves

variable [DecidableEq κ] {V V' : View κ} {H : History κ} {D D₁ : Decisions κ} {r c : Call}
  {o : Op κ} {n v : ℕ} {pre post : List (Call × Op κ × ℕ)}

/-- Call `r` can be decided with answer `v`, while the cells come to be as `V'` says. -/
def Decides (V : View κ) (H : History κ) (D : Decisions κ) (V' : View κ) (r : Call) (o : Op κ)
    (v : ℕ) : Prop :=
  ∃ D', Good V' H D' ∧ D'.claim = D.claim ∧ Decided V' H D' r o v
    ∧ ∀ u, u ≠ r.1 → Rely u V H D V' H D'

theorem Decides.of_rely (hclaim : D₁.claim = D.claim)
    (hr : ∀ u, u ≠ r.1 → Rely u V H D V H D₁) (h : Decides V H D₁ V' r o v) :
    Decides V H D V' r o v := by
  obtain ⟨D', hg, hclaim', hd, hrely⟩ := h
  exact ⟨D', hg, hclaim'.trans hclaim, hd, fun u hu => (hr u hu).trans (hrely u hu)⟩

omit [DecidableEq κ] in
/-- What other threads see of a change of the order. -/
theorem rely_of_log {u : ℕ} {D' : Decisions κ}
    (hlog : ∀ e, e.1.1 = u → (e ∈ D'.log ↔ e ∈ D.log) ∨ ∃ n, D.claim n = some e.1 ∧ V.val n ≠ 0)
    (hseen : ∀ i n, Seen H D i n → Seen H D' i n)
    (hclaim : ∀ n c, D.claim n = some c → D'.claim n = some c)
    (hown : ∀ n c, c.1 = u → D'.claim n = some c → D.claim n = some c)
    (hempty : ∀ n, D.claim n ≠ none → V.val n = 0 → V'.val n = 0)
    (hkept : ∀ n c, c.1 = u → D.claim n = some c → V.val n ≠ 0 → V'.val n ≠ 0)
    (hlive : ∀ n, V.live n → V'.live n ∨ D'.claim n ≠ none) (hkey : V'.key = V.key) :
    Rely u V H D V' H D' where
  stay e he hu := (hlog e hu).imp (fun h => h.mpr he) id
  come e he hu := (hlog e hu).imp (fun h => h.mp he) id
  seen i n _ _ := hseen i n
  claim := hclaim
  own := hown
  emptied := hempty
  kept := hkept
  live := hlive
  key n _ := by rw [hkey]
  called _ _ hc := hc
  returned _ _ _ hr := hr

/-- The place where a call began is given up. -/
theorem Good.withdraw (hg : Good V H D) (hp : Undecided H D r o) :
    ∃ D₁, Good V H D₁ ∧ r ∉ D₁.log.map (·.1) ∧ D₁.claim = D.claim
      ∧ (∀ i n, Seen H D i n → Seen H D₁ i n) ∧ ∀ u, u ≠ r.1 → Rely u V H D V H D₁ := by
  by_cases hr : r ∈ D.log.map (·.1)
  · obtain ⟨e, he, her⟩ := List.mem_map.mp hr
    obtain ⟨rfl, ho⟩ := hp.entry e he her
    obtain ⟨pre, post, hlog⟩ := List.append_of_mem he
    obtain ⟨m, hrun, hshow⟩ := hg.legal
    have ht := hg.tracks
    rw [hlog] at ht hrun
    have hmem : ∀ e', e' ∈ D.log → e'.1 ≠ r → e' ∈ pre ++ post := by
      intro e' he' hne
      rw [hlog] at he'
      have hne' : e' ≠ (r, o, 0) := fun heq => hne (congrArg Prod.fst heq)
      simpa [hne'] using he'
    have hsub : ∀ e', e' ∈ pre ++ post → e' ∈ D.log := by
      intro e' he'
      rw [hlog]
      exact (List.Sublist.append_left (List.sublist_cons_self _ post) pre).subset he'
    have hnotin : r ∉ (pre ++ post).map (·.1) := by
      have hn := ht.nodup
      rw [map_insert] at hn
      rw [List.map_append]
      exact (List.nodup_cons.mp (List.nodup_middle.mp hn)).1
    have hseen : ∀ i n, Seen H D i n → Seen H ⟨pre ++ post, D.claim⟩ i n := by
      intro i n hs c hc
      have hl := hs c hc
      rw [hlog] at hl
      refine hl.erase hp.running ?_
      rintro rfl
      exact hp.claim_ne hg hc
    refine ⟨⟨pre ++ post, D.claim⟩, ?_, hnotin, rfl, hseen, fun u hu => ?_⟩
    · exact
        { tracks := ht.erase hp.running
          answered := by
            intro r' v hv
            obtain ⟨o', ho'⟩ := hg.answered r' v hv
            refine ⟨o', hmem _ ho' ?_⟩
            rintro rfl
            exact hp.running v hv
          legal := ⟨m, Spec.run_erase hrun fun s hs => by
            rw [apply_passive ho hs], hshow⟩
          unique := hg.unique
          filled := hg.filled
          free := hg.free
          claimed := by
            intro n c hc
            obtain ⟨v, hv, hrest⟩ := hg.claimed n c hc
            refine ⟨v, hmem _ hv ?_, hrest⟩
            rintro rfl
            exact hp.claim_ne hg hc
          once := hg.once }
    · refine rely_of_log (fun e' hu' => .inl ⟨hsub e', fun he' => hmem e' he' ?_⟩) hseen
        (fun _ _ hc => hc) (fun _ _ _ hc => hc) (fun _ _ hv => hv) (fun _ _ _ _ hv => hv)
        (fun _ hl => .inl hl) rfl
      rintro heq
      exact hu (hu'.symm.trans (congrArg Prod.fst heq))
  · exact ⟨D, hg, hr, rfl, fun _ _ hs => hs, fun u _ => Rely.refl u V H D⟩

/-- A call that is not in the order has claimed nothing. -/
theorem Good.claim_ne (hg : Good V H D) (hr : r ∉ D.log.map (·.1)) : D.claim n ≠ some r := by
  intro hc
  obtain ⟨v, hv, -⟩ := hg.claimed n r hc
  exact hr (List.mem_map_of_mem hv)

/-! ## A call that changes nothing -/

/-- A call that changes nothing is decided in the middle. -/
theorem Good.place (hg : Good V H D) (hr : r ∉ D.log.map (·.1)) (hc : .call r o ∈ H)
    (hrun : ∀ w, .ret r w ∉ H) (hlog : D.log = pre ++ post)
    (hlate : ∀ j w o', Before H (.ret j w) (.call r o') → j ∈ pre.map (·.1)) {m : κ → ℕ}
    (hpre : (mapSpec κ).run (mapSpec κ).init pre = some m)
    (hm : (mapSpec κ).apply m o = (v, m)) : Decides V H D V r o v := by
  obtain ⟨m', hrun', hshow⟩ := hg.legal
  have ht := hg.tracks
  have hr' := hr
  rw [hlog] at ht hrun' hr'
  have hmem : ∀ e, e ∈ D.log → e ∈ pre ++ (r, o, v) :: post := by
    intro e he
    rw [hlog] at he
    exact (List.Sublist.append_left (List.sublist_cons_self _ post) pre).subset he
  have hseen : ∀ i n, Seen H D i n → Seen H ⟨pre ++ (r, o, v) :: post, D.claim⟩ i n := by
    intro i n hs c hc'
    have hl := hs c hc'
    rw [hlog] at hl
    exact hl.insert _
  refine ⟨⟨pre ++ (r, o, v) :: post, D.claim⟩, ?_, rfl, ⟨by simp, hrun, ?_⟩, fun u hu => ?_⟩
  · exact
      { tracks := ht.insert hr' hc hlate
        answered := fun r' w hw => (hg.answered r' w hw).imp fun _ he => hmem _ he
        legal := by
          obtain ⟨m₁, hpre', hpost⟩ := Spec.run_append_eq_some.mp hrun'
          rw [hpre] at hpre'
          cases hpre'
          exact ⟨m', Spec.run_insert hpre hpost hm, hshow⟩
        unique := hg.unique
        filled := hg.filled
        free := hg.free
        claimed := by
          intro n c hc'
          obtain ⟨w, hw, hrest⟩ := hg.claimed n c hc'
          exact ⟨w, hmem _ hw, hrest⟩
        once := hg.once }
  · exact fun n hn => absurd hn (hg.claim_ne hr)
  · refine rely_of_log (fun e hu' => .inl ?_) hseen (fun _ _ hc => hc) (fun _ _ _ hc => hc)
      (fun _ _ hv => hv) (fun _ _ _ _ hv => hv) (fun _ hl => .inl hl) rfl
    rw [hlog]
    have hne : e ≠ (r, o, v) := by
      rintro rfl
      exact hu hu'.symm
    simp [hne]

/-- The order at a claim. -/
theorem Good.claim_split (hg : Good V H D) (hn : D.claim n = some c) :
    ∃ pre post m v, D.log = pre ++ (c, .remove (V.key n), v) :: post
      ∧ (mapSpec κ).run (mapSpec κ).init pre = some m ∧ m (V.key n) = v ∧ v ≠ 0
      ∧ (V.val n ≠ 0 → V.val n = v ∧ ∀ w, .ret c w ∉ H)
      ∧ (∃ m', (mapSpec κ).run (Function.update m (V.key n) 0) post = some m' ∧ Shows V m')
      ∧ ∀ i, Late H D.log i c → ∀ j w o', Before H (.ret j w) (.call i o') → j ∈ pre.map (·.1) := by
  obtain ⟨v, hv, hne, hval⟩ := hg.claimed n c hn
  obtain ⟨m', hrun, hshow⟩ := hg.legal
  obtain ⟨pre, post, m, hlog, hpre, hm, hpost⟩ := Spec.run_answered hrun hv
  refine ⟨pre, post, m, v, hlog, hpre, hm, hne, hval, ⟨m', hpost, hshow⟩, ?_⟩
  intro i hl j w o' hb
  have h' := hl j w o' hb
  have hn := hg.tracks.nodup
  rw [hlog, map_insert] at h' hn
  exact h'.mem_of_split hn

/-- **A read.**  Of a cell that was claimed meanwhile the value is read before the claim. -/
theorem Good.read (hg : Good V H D) (hp : Undecided H D r o) (ho : o.Reads) (hk : V.key n = o.key)
    (hv : V.val n ≠ 0) (hn : V.live n ∨ D.claim n ≠ none) (hs : Seen H D r n) :
    Decides V H D V r o (V.val n) := by
  obtain ⟨D₁, hg₁, hr, hclaim, hseen, hrely⟩ := hg.withdraw hp
  refine Decides.of_rely hclaim hrely ?_
  rcases hn with hl | hc
  · obtain ⟨m, hrun, hshow⟩ := hg₁.legal
    have hm : m o.key = V.val n := hk ▸ hshow.1 n hl
    have happ := apply_reads ho (hm.symm ▸ hv)
    rw [hm] at happ
    refine hg₁.place hr hp.called hp.running (List.append_nil _).symm ?_ hrun happ
    exact fun j w o' hb => hg₁.tracks.decided j w hb.mem_left
  · rw [← hclaim] at hc
    obtain ⟨c, hc⟩ := Option.ne_none_iff_exists'.mp hc
    obtain ⟨pre, post, m, v, hlog, hpre, hm, -, hval, -, hlate⟩ := hg₁.claim_split hc
    obtain ⟨rfl, -⟩ := hval hv
    rw [hk] at hm
    have happ := apply_reads ho (hm.symm ▸ hv)
    rw [hm] at happ
    exact hg₁.place hr hp.called hp.running hlog (hlate r (hseen r n hs c hc)) hpre happ

/-- **A miss.**  Behind the claim of a cell its key has no value. -/
theorem Good.miss (hg : Good V H D) (hp : Undecided H D r o) (ho : o.Passive) (hk : V.key n = o.key)
    (hn : D.claim n ≠ none) (hs : Seen H D r n) : Decides V H D V r o 0 := by
  obtain ⟨D₁, hg₁, hr, hclaim, hseen, hrely⟩ := hg.withdraw hp
  refine Decides.of_rely hclaim hrely ?_
  rw [← hclaim] at hn
  obtain ⟨c, hc⟩ := Option.ne_none_iff_exists'.mp hn
  obtain ⟨pre, post, m, v, hlog, hpre, hm, -, -, -, hlate⟩ := hg₁.claim_split hc
  have hlog' : D₁.log = (pre ++ [(c, .remove (V.key n), v)]) ++ post := by
    rw [hlog, List.append_assoc]
    rfl
  have hpre' : (mapSpec κ).run (mapSpec κ).init (pre ++ [(c, .remove (V.key n), v)])
      = some (Function.update m (V.key n) 0) := by
    rw [← hm]
    exact Spec.run_concat hpre
  refine hg₁.place hr hp.called hp.running hlog' (fun j w o' hb => ?_) hpre' (apply_passive ho ?_)
  · rw [List.map_append]
    exact List.mem_append_left _ (hlate r (hseen r n hs c hc) j w o' hb)
  · rw [hk, Function.update_self]

/-- A call whose key had no value when it began. -/
theorem Good.stay (hg : Good V H D) (hp : Undecided H D r o) (hr : (r, o, 0) ∈ D.log) :
    Decides V H D V r o 0 :=
  ⟨D, hg, rfl, ⟨hr, hp.running, fun _ hc => absurd hc (hp.claim_ne hg)⟩,
    fun u _ => Rely.refl u V H D⟩

/-- A search that does not meet a live cell of its key. -/
theorem Good.seeks_miss (hg : Good V H D) (hp : Undecided H D r o) (ho : o.Passive) {P : ℕ → Prop}
    (hs : Seeks V H D r o P) (hP : ∀ n, V.live n → V.key n = o.key → ¬ P n) :
    Decides V H D V r o 0 := by
  rcases hs with hr | ⟨n, hk, hsn, hc | ⟨hl, hPn⟩⟩
  · exact hg.stay hp hr
  · exact hg.miss hp ho hk hc hsn
  · exact absurd hPn (hP n hl hk)

/-! ## A call that changes the cells -/

/-- A call is decided last. -/
theorem Good.append (hg : Good V H D) (hr : r ∉ D.log.map (·.1)) (hc : .call r o ∈ H) :
    ∃ m, Shows V m ∧ Tracks H (D.log ++ [(r, o, m o.key)])
      ∧ (mapSpec κ).run (mapSpec κ).init (D.log ++ [(r, o, m o.key)])
        = some (Function.update m o.key (o.leaves (m o.key))) := by
  obtain ⟨m, hrun, hshow⟩ := hg.legal
  exact ⟨m, hshow, hg.tracks.decide hr hc, Spec.run_concat hrun⟩

/-- What other threads see of a call that is decided last. -/
theorem Good.rely_append (hg : Good V H D) (V' : View κ) {claim : ℕ → Option Call}
    (hclaim : ∀ n c, D.claim n = some c → claim n = some c)
    (hown : ∀ n c, claim n = some c → D.claim n = some c ∨ c = r)
    (hempty : ∀ n, D.claim n ≠ none → V.val n = 0 → V'.val n = 0)
    (hkept : ∀ n, D.claim n ≠ none → V.val n ≠ 0 → V'.val n ≠ 0)
    (hlive : ∀ n, V.live n → V'.live n ∨ claim n ≠ none) (hkey : V'.key = V.key) {u : ℕ}
    (hu : u ≠ r.1) : Rely u V H D V' H ⟨D.log ++ [(r, o, v)], claim⟩ := by
  refine rely_of_log (fun e hu' => .inl ?_) (fun i n hs c hc => ?_) hclaim (fun n c hu' hc => ?_)
    hempty (fun n c _ hc => hkept n (by simp [hc])) hlive hkey
  · have hne : e ≠ (r, o, v) := by
      rintro rfl
      exact hu hu'.symm
    simp [hne]
  · rcases hown n c hc with hc' | rfl
    · have hl := hs c hc'
      rw [← List.append_nil D.log] at hl
      exact hl.insert _
    · exact late_concat hg.tracks.decided _
  · refine (hown n c hc).resolve_right ?_
    rintro rfl
    exact hu hu'.symm

/-- **A cell is put in.** -/
theorem Good.insert {mode : Mode} {key : κ} {new : ℕ} (hg : Good V H D)
    (hp : Undecided H D r (.write mode key new)) (hmode : mode ≠ .replace) (hnew : new ≠ 0)
    (hfree : D.claim n = none) (hk : V.key n = key) (hv : V.val n = new)
    (habsent : ∀ x, V.live x → V.key x ≠ key) :
    Decides V H D { V with live := fun x => V.live x ∨ x = n } r (.write mode key new) 0 := by
  obtain ⟨D₁, hg₁, hr, hclaim, -, hrely⟩ := hg.withdraw hp
  refine Decides.of_rely hclaim hrely ?_
  obtain ⟨m, hshow, ht, hrun⟩ := hg₁.append hr hp.called
  have hm : m key = 0 := by
    by_contra hne
    obtain ⟨x, hx, hkx⟩ := hshow.2 key hne
    exact habsent x hx hkx
  simp only [Op.key, Op.leaves, hm, if_true, if_neg hmode] at ht hrun
  rw [← hclaim] at hfree
  refine ⟨⟨D₁.log ++ [(r, .write mode key new, 0)], D₁.claim⟩, ?_, rfl, ⟨by simp, hp.running, ?_⟩,
    fun u hu => hg₁.rely_append { V with live := fun x => V.live x ∨ x = n } (fun _ _ hc => hc)
      (fun _ _ hc => .inl hc) (fun _ _ hv => hv) (fun _ _ hv => hv) (fun _ hl => .inl (.inl hl)) rfl
      hu⟩
  · exact
      { tracks := ht
        answered := fun r' w hw => (hg₁.answered r' w hw).imp fun _ he => List.mem_append_left _ he
        legal := by
          refine ⟨_, hrun, fun x hx => ?_, fun k hk' => ?_⟩
          · rcases hx with hx | rfl
            · rw [Function.update_of_ne (habsent x hx)]
              exact hshow.1 x hx
            · rw [hk, Function.update_self]
              exact hv.symm
          · by_cases hkk : k = key
            · exact ⟨n, .inr rfl, hk.trans hkk.symm⟩
            · rw [Function.update_of_ne hkk] at hk'
              obtain ⟨x, hx, hkx⟩ := hshow.2 k hk'
              exact ⟨x, .inl hx, hkx⟩
        unique := by
          rintro x y (hx | rfl) (hy | rfl) heq
          · exact hg₁.unique x y hx hy heq
          · exact absurd (heq.trans hk) (habsent x hx)
          · exact absurd (heq.symm.trans hk) (habsent y hy)
          · rfl
        filled := by
          rintro x (hx | rfl)
          · exact hg₁.filled x hx
          · exact fun h0 => hnew (hv.symm.trans h0)
        free := by
          rintro x (hx | rfl)
          · exact hg₁.free x hx
          · exact hfree
        claimed := by
          intro x c hc
          obtain ⟨w, hw, hrest⟩ := hg₁.claimed x c hc
          exact ⟨w, List.mem_append_left _ hw, hrest⟩
        once := hg₁.once }
  · exact fun x hx => absurd hx (hg₁.claim_ne hr)

/-- The value of a live cell is replaced. -/
theorem Good.update_live {mode : Mode} {new : ℕ} (hg : Good V H D) (hr : r ∉ D.log.map (·.1))
    (hc : .call r (.write mode (V.key n) new) ∈ H) (hrun : ∀ w, .ret r w ∉ H) (hmode : mode ≠ .add)
    (hnew : new ≠ 0) (hl : V.live n) :
    Decides V H D { V with val := Function.update V.val n new } r (.write mode (V.key n) new)
      (V.val n) := by
  obtain ⟨m, hshow, ht, hrun'⟩ := hg.append hr hc
  have hm : m (V.key n) = V.val n := hshow.1 n hl
  simp only [Op.key, Op.leaves, hm, if_neg (hg.filled n hl), if_neg hmode] at ht hrun'
  have hne : ∀ x, D.claim x ≠ none → x ≠ n := by
    rintro x hx rfl
    exact hx (hg.free x hl)
  have hval : ∀ x, D.claim x ≠ none → Function.update V.val n new x = V.val x := fun x hx =>
    Function.update_of_ne (hne x hx) ..
  refine ⟨⟨D.log ++ [(r, .write mode (V.key n) new, V.val n)], D.claim⟩, ?_, rfl,
    ⟨by simp, hrun, fun x hx => absurd hx (hg.claim_ne hr)⟩,
    fun u hu => hg.rely_append { V with val := Function.update V.val n new } (fun _ _ hc => hc)
      (fun _ _ hc => .inl hc) (fun x hx hv => (hval x hx).trans hv)
      (fun x hx hv => (hval x hx).trans_ne hv) (fun _ hl => .inl hl) rfl hu⟩
  exact
    { tracks := ht
      answered := fun r' w hw => (hg.answered r' w hw).imp fun _ he => List.mem_append_left _ he
      legal := by
        refine ⟨_, hrun', fun x hx => ?_, fun k hk => ?_⟩
        · change Function.update m (V.key n) new (V.key x) = Function.update V.val n new x
          by_cases hxn : x = n
          · rw [hxn, Function.update_self, Function.update_self]
          · have hkne : V.key x ≠ V.key n := fun heq => hxn (hg.unique x n hx hl heq)
            rw [Function.update_of_ne hkne, Function.update_of_ne hxn]
            exact hshow.1 x hx
        · by_cases hkn : k = V.key n
          · exact ⟨n, hl, hkn.symm⟩
          · rw [Function.update_of_ne hkn] at hk
            exact hshow.2 k hk
      unique := hg.unique
      filled := by
        intro x hx
        change Function.update V.val n new x ≠ 0
        by_cases hxn : x = n
        · rw [hxn, Function.update_self]
          exact hnew
        · rw [Function.update_of_ne hxn]
          exact hg.filled x hx
      free := hg.free
      claimed := by
        intro x c hx
        obtain ⟨w, hw, hne0, hrest⟩ := hg.claimed x c hx
        refine ⟨w, List.mem_append_left _ hw, hne0, ?_⟩
        change Function.update V.val n new x ≠ 0 → Function.update V.val n new x = w ∧ _
        rw [hval x (Option.ne_none_iff_exists'.mpr ⟨c, hx⟩)]
        exact hrest
      once := hg.once }

/-- The value of a cell that was claimed meanwhile is replaced: before the claim, and the
removal takes the new value. -/
theorem Good.update_claimed {mode : Mode} {new : ℕ} (hg : Good V H D) (hr : r ∉ D.log.map (·.1))
    (hcall : .call r (.write mode (V.key n) new) ∈ H) (hrun : ∀ w, .ret r w ∉ H)
    (hmode : mode ≠ .add) (hnew : new ≠ 0) (hv : V.val n ≠ 0) (hc : D.claim n = some c)
    (hs : Late H D.log r c) :
    Decides V H D { V with val := Function.update V.val n new } r (.write mode (V.key n) new)
      (V.val n) := by
  obtain ⟨pre, post, m, v, hlog, hpre, hm, hne0, hval, ⟨m', hpost, hshow⟩, hlate⟩ := hg.claim_split hc
  obtain ⟨rfl, hret⟩ := hval hv
  set k := V.key n
  set e : Call × Op κ × ℕ := (r, .write mode k new, V.val n) with he
  have hnl : ∀ x, V.live x → x ≠ n := by
    rintro x hx rfl
    rw [hg.free x hx] at hc
    cases hc
  have hmem : ∀ e', e'.1 ≠ c → (e' ∈ pre ++ e :: (c, .remove k, new) :: post ↔ e' = e ∨ e' ∈ D.log) := by
    intro e' hne
    have h₁ : ∀ w : ℕ, e' ≠ (c, .remove k, w) := fun w heq => hne (congrArg Prod.fst heq)
    simp [hlog, h₁, or_left_comm]
  have hcr : c ≠ r := by
    rintro rfl
    exact hg.claim_ne hr hc
  have hids : (pre ++ (c, .remove k, new) :: post).map (·.1) = D.log.map (·.1) := by
    rw [hlog, map_insert, map_insert]
  have ht : Tracks H (pre ++ (c, .remove k, new) :: post) := by
    have ht := hg.tracks
    rw [hlog] at ht
    exact ht.relabel
  have hseen : ∀ i x, Seen H D i x
      → Seen H ⟨pre ++ e :: (c, .remove k, new) :: post, D.claim⟩ i x := by
    intro i x hsx c' hc'
    have hl := hsx c' hc'
    rw [hlog] at hl
    exact hl.relabel.insert e
  refine ⟨⟨pre ++ e :: (c, .remove k, new) :: post, D.claim⟩, ?_, rfl,
    ⟨by simp [he], hrun, fun x hx => absurd hx (hg.claim_ne hr)⟩, fun u hu => ?_⟩
  · exact
      { tracks := ht.insert (hids ▸ hr) hcall (hlate r hs)
        answered := by
          intro r' w hw
          obtain ⟨o', ho'⟩ := hg.answered r' w hw
          refine ⟨o', (hmem _ ?_).mpr (.inr ho')⟩
          rintro rfl
          exact hret w hw
        legal := by
          refine ⟨m', Spec.run_append_eq_some.mpr ⟨m, hpre, ?_⟩, fun x hx => ?_, hshow.2⟩
          · refine Spec.run_cons_eq_some.mpr ⟨hm, Spec.run_cons_eq_some.mpr ⟨?_, ?_⟩⟩
            · simp [mapSpec, Op.key, Op.leaves, hm, hne0, hmode]
            · simpa [mapSpec, Op.key, Op.leaves] using hpost
          · change m' (V.key x) = Function.update V.val n new x
            rw [Function.update_of_ne (hnl x hx)]
            exact hshow.1 x hx
        unique := hg.unique
        filled := by
          intro x hx
          change Function.update V.val n new x ≠ 0
          rw [Function.update_of_ne (hnl x hx)]
          exact hg.filled x hx
        free := hg.free
        claimed := by
          intro x c' hc'
          change ∃ w, _ ∧ w ≠ 0 ∧ (Function.update V.val n new x ≠ 0
            → Function.update V.val n new x = w ∧ _)
          by_cases hxn : x = n
          · subst hxn
            rw [hc] at hc'
            cases hc'
            rw [Function.update_self]
            exact ⟨new, by simp [k], hnew, fun _ => ⟨rfl, hret⟩⟩
          · obtain ⟨w, hw, hne', hval'⟩ := hg.claimed x c' hc'
            rw [Function.update_of_ne hxn]
            refine ⟨w, (hmem _ ?_).mpr (.inr hw), hne', hval'⟩
            rintro rfl
            exact hxn (hg.once x n _ hc' hc)
        once := hg.once }
  · refine rely_of_log (fun e' hu' => ?_) hseen (fun _ _ hc => hc) (fun _ _ _ hc => hc)
      (fun x hx hv' => ?_) (fun x _ _ _ hv' => ?_) (fun _ hl => .inl hl) rfl
    · by_cases hec : e'.1 = c
      · exact .inr ⟨n, hec ▸ hc, hv⟩
      · refine .inl ((hmem e' hec).trans (or_iff_right ?_))
        rintro rfl
        exact hu hu'.symm
    · change Function.update V.val n new x = 0
      rw [Function.update_of_ne]
      · exact hv'
      · rintro rfl
        exact hv hv'
    · change Function.update V.val n new x ≠ 0
      by_cases hxn : x = n
      · rw [hxn, Function.update_self]
        exact hnew
      · rw [Function.update_of_ne hxn]
        exact hv'

/-- **An update.** -/
theorem Good.update {mode : Mode} {key : κ} {new : ℕ} (hg : Good V H D)
    (hp : Undecided H D r (.write mode key new)) (hmode : mode ≠ .add) (hnew : new ≠ 0)
    (hk : V.key n = key) (hv : V.val n ≠ 0) (hn : V.live n ∨ D.claim n ≠ none) (hs : Seen H D r n) :
    Decides V H D { V with val := Function.update V.val n new } r (.write mode key new)
      (V.val n) := by
  subst hk
  obtain ⟨D₁, hg₁, hr, hclaim, hseen, hrely⟩ := hg.withdraw hp
  refine Decides.of_rely hclaim hrely ?_
  rcases hn with hl | hc
  · exact hg₁.update_live hr hp.called hp.running hmode hnew hl
  · rw [← hclaim] at hc
    obtain ⟨c, hc⟩ := Option.ne_none_iff_exists'.mp hc
    exact hg₁.update_claimed hr hp.called hp.running hmode hnew hv hc (hseen r n hs c hc)

/-- **A claim.**  From here on the cell does not count. -/
theorem Good.claim (hg : Good V H D) (hp : Undecided H D r (.remove (V.key n))) (hl : V.live n) :
    ∃ D', Good { V with live := fun x => V.live x ∧ x ≠ n } H D'
      ∧ D'.claim = Function.update D.claim n (some r)
      ∧ ∀ u, u ≠ r.1 → Rely u V H D { V with live := fun x => V.live x ∧ x ≠ n } H D' := by
  obtain ⟨D₁, hg₁, hr, hclaim, -, hrely⟩ := hg.withdraw hp
  obtain ⟨m, hshow, ht, hrun⟩ := hg₁.append hr hp.called
  have hm : m (V.key n) = V.val n := hshow.1 n hl
  simp only [Op.key, Op.leaves, hm] at ht hrun
  have hfree := hg₁.free n hl
  have hold : ∀ x c, D₁.claim x = some c → Function.update D₁.claim n (some r) x = some c := by
    intro x c hx
    rw [Function.update_of_ne]
    · exact hx
    · rintro rfl
      rw [hfree] at hx
      cases hx
  have hnew : ∀ x c, Function.update D₁.claim n (some r) x = some c →
      D₁.claim x = some c ∨ x = n ∧ c = r := by
    intro x c hx
    by_cases hxn : x = n
    · rw [hxn, Function.update_self] at hx
      exact .inr ⟨hxn, (Option.some.inj hx).symm⟩
    · rw [Function.update_of_ne hxn] at hx
      exact .inl hx
  refine ⟨⟨D₁.log ++ [(r, .remove (V.key n), V.val n)], Function.update D₁.claim n (some r)⟩, ?_,
    by rw [hclaim], fun u hu => (hrely u hu).trans
      (hg₁.rely_append { V with live := fun x => V.live x ∧ x ≠ n } hold
        (fun x c hx => (hnew x c hx).imp id fun h => h.2) (fun _ _ hv => hv) (fun _ _ hv => hv)
        (fun x hx => ?_) rfl hu)⟩
  · exact
      { tracks := ht
        answered := fun r' w hw => (hg₁.answered r' w hw).imp fun _ he => List.mem_append_left _ he
        legal := by
          refine ⟨_, hrun, fun x hx => ?_, fun k hk => ?_⟩
          · have hkne : V.key x ≠ V.key n := fun heq => hx.2 (hg₁.unique x n hx.1 hl heq)
            rw [Function.update_of_ne hkne]
            exact hshow.1 x hx.1
          · by_cases hkn : k = V.key n
            · rw [hkn, Function.update_self] at hk
              exact absurd rfl hk
            · rw [Function.update_of_ne hkn] at hk
              obtain ⟨x, hx, hkx⟩ := hshow.2 k hk
              refine ⟨x, ⟨hx, ?_⟩, hkx⟩
              rintro rfl
              exact hkn hkx.symm
        unique := fun x y hx hy heq => hg₁.unique x y hx.1 hy.1 heq
        filled := fun x hx => hg₁.filled x hx.1
        free := by
          rintro x ⟨hx, hxn⟩
          change Function.update D₁.claim n (some r) x = none
          rw [Function.update_of_ne hxn]
          exact hg₁.free x hx
        claimed := by
          intro x c hx
          rcases hnew x c hx with hx | ⟨rfl, rfl⟩
          · obtain ⟨w, hw, hrest⟩ := hg₁.claimed x c hx
            exact ⟨w, List.mem_append_left _ hw, hrest⟩
          · exact ⟨V.val x, by simp, hg₁.filled x hl, fun _ => ⟨rfl, hp.running⟩⟩
        once := by
          intro x y c hx hy
          rcases hnew x c hx with hx' | ⟨hxn, hcr⟩
          · rcases hnew y c hy with hy' | ⟨-, hcr⟩
            · exact hg₁.once x y c hx' hy'
            · exact absurd (hcr ▸ hx') (hg₁.claim_ne hr)
          · rcases hnew y c hy with hy' | ⟨hyn, -⟩
            · exact absurd (hcr ▸ hy') (hg₁.claim_ne hr)
            · exact hxn.trans hyn.symm }
  · by_cases hxn : x = n
    · right
      rw [hxn, Function.update_self]
      exact Option.some_ne_none r
    · exact .inl ⟨hx, hxn⟩

/-- **A removal takes the value.** -/
theorem Good.empty (hg : Good V H D) (hc : D.claim n = some r) (hv : V.val n ≠ 0) :
    Decides V H D { V with val := Function.update V.val n 0 } r (.remove (V.key n)) (V.val n) := by
  have hnl : ∀ x, V.live x → x ≠ n := by
    rintro x hx rfl
    rw [hg.free x hx] at hc
    cases hc
  have hzero : ∀ x, V.val x = 0 → Function.update V.val n 0 x = 0 := by
    intro x hx
    by_cases hxn : x = n
    · rw [hxn, Function.update_self]
    · rw [Function.update_of_ne hxn]
      exact hx
  obtain ⟨v, hmem, -, hval⟩ := hg.claimed n r hc
  obtain ⟨rfl, hrun⟩ := hval hv
  obtain ⟨m, hrun', hshow⟩ := hg.legal
  refine ⟨D, ?_, rfl, ⟨hmem, hrun, fun x hx => ?_⟩, fun u hu => rely_of_log
    (fun _ _ => .inl Iff.rfl) (fun _ _ hs => hs) (fun _ _ hc => hc) (fun _ _ _ hc => hc)
    (fun x _ hx => hzero x hx) (fun x c hcu hx hvx => ?_) (fun _ hl => .inl hl) rfl⟩
  · exact
      { tracks := hg.tracks
        answered := hg.answered
        legal := by
          refine ⟨m, hrun', fun x hx => ?_, hshow.2⟩
          change m (V.key x) = Function.update V.val n 0 x
          rw [Function.update_of_ne (hnl x hx)]
          exact hshow.1 x hx
        unique := hg.unique
        filled := by
          intro x hx
          change Function.update V.val n 0 x ≠ 0
          rw [Function.update_of_ne (hnl x hx)]
          exact hg.filled x hx
        free := hg.free
        claimed := by
          intro x c hx
          obtain ⟨w, hw, hne, hval'⟩ := hg.claimed x c hx
          refine ⟨w, hw, hne, fun h0 => ?_⟩
          change Function.update V.val n 0 x = w ∧ _
          by_cases hxn : x = n
          · refine absurd ?_ h0
            change Function.update V.val n 0 x = 0
            rw [hxn, Function.update_self]
          · change Function.update V.val n 0 x ≠ 0 at h0
            rw [Function.update_of_ne hxn] at h0 ⊢
            exact hval' h0
        once := hg.once }
  · rw [hg.once x n r hx hc]
    exact Function.update_self ..
  · change Function.update V.val n 0 x ≠ 0
    rw [Function.update_of_ne]
    · exact hvx
    · rintro rfl
      rw [hc] at hx
      cases hx
      exact hu hcu.symm

/-! ## Calls and returns -/

/-- Only the live and the claimed cells count. -/
theorem Good.congr (hg : Good V H D) (hlive : ∀ n, V'.live n ↔ V.live n)
    (hkey : ∀ n, V.live n ∨ D.claim n ≠ none → V'.key n = V.key n)
    (hval : ∀ n, V.live n ∨ D.claim n ≠ none → V'.val n = V.val n) :
    Good V' H D ∧ ∀ u, Rely u V H D V' H D := by
  obtain ⟨m, hrun, hshow⟩ := hg.legal
  refine ⟨?_, fun u => ?_⟩
  · exact
      { tracks := hg.tracks
        answered := hg.answered
        legal := by
          refine ⟨m, hrun, fun n hn => ?_, fun k hk => ?_⟩
          · have hl := (hlive n).mp hn
            rw [hkey n (.inl hl), hval n (.inl hl)]
            exact hshow.1 n hl
          · obtain ⟨n, hn, hkn⟩ := hshow.2 k hk
            exact ⟨n, (hlive n).mpr hn, (hkey n (.inl hn)).trans hkn⟩
        unique := by
          intro n n' hn hn' heq
          rw [hlive] at hn hn'
          rw [hkey n (.inl hn), hkey n' (.inl hn')] at heq
          exact hg.unique n n' hn hn' heq
        filled := by
          intro n hn
          rw [hlive] at hn
          rw [hval n (.inl hn)]
          exact hg.filled n hn
        free := fun n hn => hg.free n ((hlive n).mp hn)
        claimed := by
          intro n c hc
          rw [hkey n (.inr (by simp [hc])), hval n (.inr (by simp [hc]))]
          exact hg.claimed n c hc
        once := hg.once }
  · exact
      { Rely.refl u V H D with
        emptied := fun n hn hv => (hval n (.inr hn)).trans hv
        kept := by
          intro n c _ hc hv
          rw [hval n (.inr (by simp [hc]))]
          exact hv
        live := fun n hl => .inl ((hlive n).mpr hl)
        key := hkey }

omit [DecidableEq κ] in
/-- What other threads see of a call or a return. -/
theorem rely_events {e : Event Call (Op κ) ℕ} {u : ℕ} (hcall : ∀ i o, e = .call i o → i.1 ≠ u)
    (hret : ∀ i w, e = .ret i w → i.1 ≠ u) : Rely u V H D V (H ++ [e]) D :=
  { Rely.refl u V H D with
    seen := by
      rintro i n hi - hs c hc
      exact (hs c hc).events fun o heq => hcall i o heq hi
    called := fun _ _ hc => List.mem_append_left _ hc
    returned := by
      intro i w hi hw
      rcases List.mem_append.mp hw with hw | hw
      · exact hw
      · exact absurd hi (hret i w (List.mem_singleton.mp hw).symm) }

/-- **A return.** -/
theorem Good.ret (hg : Good V H D) (hd : Decided V H D r o v) :
    Good V (H ++ [.ret r v]) D ∧ ∀ u, u ≠ r.1 → Rely u V H D V (H ++ [.ret r v]) D := by
  refine ⟨?_, fun u hu => rely_events (fun _ _ heq => by cases heq) fun i w heq => ?_⟩
  · exact
      { tracks := hg.tracks.ret (List.mem_map_of_mem hd.entry)
        answered := by
          intro i w hw
          rcases List.mem_append.mp hw with hw | hw
          · exact hg.answered i w hw
          · cases List.mem_singleton.mp hw
            exact ⟨o, hd.entry⟩
        legal := hg.legal
        unique := hg.unique
        filled := hg.filled
        free := hg.free
        claimed := by
          intro n c hc
          obtain ⟨w, hw, hne, hval⟩ := hg.claimed n c hc
          refine ⟨w, hw, hne, fun h0 => ⟨(hval h0).1, fun w' hw' => ?_⟩⟩
          rcases List.mem_append.mp hw' with hw' | hw'
          · exact (hval h0).2 w' hw'
          · cases List.mem_singleton.mp hw'
            exact h0 (hd.emptied n hc)
        once := hg.once }
  · cases heq
    exact hu.symm

/-- A call of which nothing is known yet. -/
structure Fresh (H : History κ) (r : Call) : Prop where
  call : ∀ o, .call r o ∉ H
  ret : ∀ v, .ret r v ∉ H

theorem Good.notMem (hg : Good V H D) (hf : Fresh H r) : r ∉ D.log.map (·.1) := by
  intro hr
  obtain ⟨⟨r', o, v⟩, he, rfl⟩ := List.mem_map.mp hr
  exact hf.call o (hg.tracks.called r' o v he)

/-- **A call.**  Where its key has no value, this is a place for it. -/
theorem Good.call (hg : Good V H D) (hf : Fresh H r) (o : Op κ) :
    ∃ D', Good V (H ++ [.call r o]) D' ∧ D'.claim = D.claim ∧ Undecided (H ++ [.call r o]) D' r o
      ∧ (o.Passive → Seeks V (H ++ [.call r o]) D' r o fun _ => True)
      ∧ ∀ u, u ≠ r.1 → Rely u V H D V (H ++ [.call r o]) D' := by
  have hr := hg.notMem hf
  have hcalled : .call r o ∈ H ++ [.call r o] := List.mem_append_right _ (List.mem_singleton_self _)
  have hrunning : ∀ w, .ret r w ∉ H ++ [.call r o] := by
    intro w hw
    rcases List.mem_append.mp hw with hw | hw
    · exact hf.ret w hw
    · cases List.mem_singleton.mp hw
  have hrely : ∀ u, u ≠ r.1 → Rely u V H D V (H ++ [.call r o]) D := by
    refine fun u hu => rely_events (fun i o' heq => ?_) fun _ _ heq => by cases heq
    cases heq
    exact hu.symm
  have hg' : Good V (H ++ [.call r o]) D :=
    { tracks := hg.tracks.call hr
      answered := by
        intro i w hw
        rcases List.mem_append.mp hw with hw | hw
        · exact hg.answered i w hw
        · cases List.mem_singleton.mp hw
      legal := hg.legal
      unique := hg.unique
      filled := hg.filled
      free := hg.free
      claimed := by
        intro n c hc
        obtain ⟨w, hw, hne, hval⟩ := hg.claimed n c hc
        refine ⟨w, hw, hne, fun h0 => ⟨(hval h0).1, fun w' hw' => ?_⟩⟩
        rcases List.mem_append.mp hw' with hw' | hw'
        · exact (hval h0).2 w' hw'
        · cases List.mem_singleton.mp hw'
      once := hg.once }
  have hentry : ∀ e ∈ D.log, e.1 = r → e = (r, o, 0) ∧ o.Passive := fun e he heq =>
    absurd (heq ▸ List.mem_map_of_mem he) hr
  have hp : Undecided (H ++ [.call r o]) D r o := ⟨hcalled, hrunning, hentry⟩
  by_cases hkey : ∃ n, V.live n ∧ V.key n = o.key
  · obtain ⟨n, hl, hk⟩ := hkey
    refine ⟨D, hg', rfl, hp, fun _ => .inr ⟨n, hk, fun c hc => ?_, .inr ⟨hl, trivial⟩⟩, hrely⟩
    rw [hg.free n hl] at hc
    cases hc
  · by_cases ho : o.Passive
    · -- the key has no value now, and the call may find that
      obtain ⟨m, hrun, hshow⟩ := hg'.legal
      have hm : m o.key = 0 := by
        by_contra hne
        obtain ⟨n, hl, hk⟩ := hshow.2 o.key hne
        exact hkey ⟨n, hl, hk⟩
      have hlate : ∀ j w o', Before (H ++ [.call r o]) (.ret j w) (.call r o')
          → j ∈ D.log.map (·.1) := fun j w o' hb => hg'.tracks.decided j w hb.mem_left
      obtain ⟨D', hD', hclaim, hd, hrely'⟩ := hg'.place hr hcalled hrunning (List.append_nil _).symm hlate
        hrun (apply_passive ho hm)
      refine ⟨D', hD', hclaim, ⟨hcalled, hrunning, fun e he heq => ⟨?_, ho⟩⟩, fun _ => .inl hd.entry,
        fun u hu => (hrely u hu).trans (hrely' u hu)⟩
      exact List.inj_on_of_nodup_map hD'.tracks.nodup he hd.entry heq
    · exact ⟨D, hg', rfl, hp, fun h => absurd h ho, hrely⟩

end Moves

end ClaimedCells
