/-
# The order of the update lists of `txn.c`

What stays true of the update lists in the runs of the calls, also where the counts in
`active_` are wrong and the collector frees a record that is still linked.

* a list is read down to a literal, its end, or a record the collector has freed
  (`Visible`);
* going down it, the version numbers of committed records never increase, and a record
  of a running transaction is never below a committed one that this transaction may
  read past (`ListOrder`);
* a transaction whose commit succeeds has no committed record above one of its own.

`nbd_malloc` may return any block that is not in use (`stepOn`).  The collector of
`txn_map_get` leaves the link to the first record that it frees.  While nobody is given a
block that is still named (`Named`) the lists stay as they should be; `reused_block_in_cycle`
is a run in which the next `txn_map_set` is given such a block.  `txn_map_set` accepts any
value with both tag bits clear (`stepAny`), also 0.
-/
import Ssr.TxnSnapshot

open Interleaving Map Active

namespace Txn

/-! ## Calls with any admissible value -/

/-- The state after a call on a live transaction, with any value that the assertion of
`txn_map_set` accepts.  `txn_map_get` cannot merge the value 0 into the map: the new
value of `ht_cas` must not be `DOES_NOT_EXIST`. -/
def stepAny (s : St) : Call → Option St
  | .set t key value => if s.live t ∧ value < 2 ^ 62 then some (txnMapSet s s.brk t key value) else none
  | .get t key => (step s (.get t key)).filter fun s' => s'.map key ≠ .lit 0
  | c => step s c

/-- The state after a call, for any block that `nbd_malloc` may return; only `txn_map_set`
allocates a record. -/
def stepOn (s : St) : Call × ℕ → Option St
  | (.set t key value, u) =>
    if s.live t ∧ value < 2 ^ 62 ∧ s.Unused u then some (txnMapSet s u t key value) else none
  | (c, _) => stepAny s c

/-- Somebody has the address of block `u`: a record that is not freed links to it, or a running
transaction has it in its write set. -/
def Named (s : St) (u : ℕ) : Prop :=
  (∃ v ∈ List.range s.brk, v ∉ s.freed ∧ (s.record v).next = .upd u)
    ∨ ∃ t ∈ List.range s.txns, s.live t = true ∧ u ∈ (s.txn t).writes.map Prod.snd

instance (s : St) (u : ℕ) : Decidable (Named s u) := inferInstanceAs (Decidable (_ ∨ _))

/-- The condition on a step: `txn_map_set` is given a block that nobody has the address of. -/
def Unnamed (s : St) : Call × ℕ → Prop
  | (.set _ _ _, u) => ¬ Named s u
  | _ => True

/-- The stronger condition that `txn_map_get` frees no record. -/
def Keeps (s : St) : Call × ℕ → Prop
  | (.get t key, _) => Fits s (.get t key)
  | _ => True

instance (s : St) (e : Call × ℕ) : Decidable (Unnamed s e) := by
  unfold Unnamed
  split <;> infer_instance

/-! ## Lists cut off at a freed record -/

/-- The records from a word on, down to a literal, the end or a freed record. -/
inductive Visible (s : St) : Val → List ℕ → Prop
  | dne : Visible s .dne []
  | lit (v : ℕ) : Visible s (.lit v) []
  | freed {u : ℕ} : u ∈ s.freed → Visible s (.upd u) []
  | cons {u : ℕ} {us : List ℕ} : u ∉ s.freed → Visible s (s.record u).next us →
      Visible s (.upd u) (u :: us)

/-- The records of the list are as they were. -/
theorem Visible.congr {s s' : St} {val : Val} {us : List ℕ} (h : Visible s val us)
    (hfreed : s'.freed = s.freed) (hnext : ∀ u ∈ us, (s'.record u).next = (s.record u).next) :
    Visible s' val us := by
  induction h with
  | dne => exact .dne
  | lit v => exact .lit v
  | freed hu =>
    rw [← hfreed] at hu
    exact .freed hu
  | @cons u us hu _ ih =>
    rw [← hfreed] at hu
    refine .cons hu ?_
    rw [hnext u List.mem_cons_self]
    exact ih fun v hv => hnext v (List.mem_cons_of_mem _ hv)

/-- A change that frees records, and changes the links of freed records only, cuts lists
off further up. -/
theorem Visible.cut {s s' : St} {val : Val} {us : List ℕ} (h : Visible s val us)
    (hfreed : ∀ u, u ∈ s.freed → u ∈ s'.freed)
    (hnext : ∀ u, u ∉ s'.freed → (s'.record u).next = (s.record u).next) :
    ∃ us', Visible s' val us' ∧ us' <+: us := by
  induction h with
  | dne => exact ⟨[], .dne, List.prefix_rfl⟩
  | lit v => exact ⟨[], .lit v, List.prefix_rfl⟩
  | freed hu => exact ⟨[], .freed (hfreed _ hu), List.prefix_rfl⟩
  | @cons u us _ _ ih =>
    obtain ⟨us', hus', hpre⟩ := ih
    by_cases hu : u ∈ s'.freed
    · exact ⟨[], .freed hu, List.nil_prefix⟩
    · refine ⟨u :: us', .cons hu ?_, (List.prefix_cons_inj u).mpr hpre⟩
      rw [hnext u hu]
      exact hus'

/-- A list that does not come to block `u` does not change when `u` is taken and written. -/
theorem Visible.avoid {s s' : St} {val : Val} {us : List ℕ} {u : ℕ} (h : Visible s val us)
    (hval : val ≠ .upd u) (hlink : ∀ v, v ∉ s.freed → (s.record v).next ≠ .upd u)
    (hfreed : ∀ v, v ≠ u → (v ∈ s'.freed ↔ v ∈ s.freed))
    (hrec : ∀ v, v ≠ u → s'.record v = s.record v) : Visible s' val us ∧ u ∉ us := by
  induction h with
  | dne => exact ⟨.dne, List.not_mem_nil⟩
  | lit v => exact ⟨.lit v, List.not_mem_nil⟩
  | @freed w hw =>
    have hne : w ≠ u := fun heq => hval (heq ▸ rfl)
    exact ⟨.freed ((hfreed w hne).mpr hw), List.not_mem_nil⟩
  | @cons w us hw _ ih =>
    have hne : w ≠ u := fun heq => hval (heq ▸ rfl)
    obtain ⟨hus, hnot⟩ := ih (hlink w hw)
    refine ⟨.cons (fun hmem => hw ((hfreed w hne).mp hmem)) ?_, ?_⟩
    · rw [hrec w hne]
      exact hus
    · exact fun hmem => (List.mem_cons.mp hmem).elim hne.symm hnot

/-! ## The invariant -/

/-- Going down, the version numbers of committed records never increase. -/
def Descending (record : ℕ → Update) (us : List ℕ) : Prop :=
  us.Pairwise fun v u => ∀ m n, (record v).version = .num m → (record u).version = .num n → n ≤ m

/-- No record above one of transaction `t` is committed. -/
def Uppermost (record : ℕ → Update) (t : ℕ) (us : List ℕ) : Prop :=
  us.Pairwise fun v u => (record u).version = .owner t → ∀ m, (record v).version ≠ .num m

/-- The list of one key. -/
structure ListOrder (s : St) (key : ℕ) (us : List ℕ) : Prop where
  mem_writes : ∀ u ∈ us, ∀ w, (s.record u).version = .owner w → (key, u) ∈ (s.txn w).writes
  newer : NewerFirst s.record (fun w => (s.txn w).rv) us
  descending : Descending s.record us

/-- The invariant of the runs in which nobody is given a block that is named.  No record is
linked twice: the first record of a list is in no other list, and no record links to it. -/
structure Order (s : St) : Prop where
  next_lt : ∀ u v, (s.record u).next = .upd v → u < s.brk ∧ v < s.brk
  freed_lt : ∀ u ∈ s.freed, u < s.brk
  map_ok : ∀ key u, s.map key = .upd u → u < s.brk ∧ u ∉ s.freed
  heads : ∀ k k' u, s.map k = .upd u → s.map k' = .upd u → k = k'
  linked : ∀ u v k, u ∉ s.freed → (s.record u).next = .upd v → s.map k ≠ .upd v
  running : ∀ t, s.live t = true → Running s t
  fresh : ∀ t, s.txns ≤ t → s.live t = false
  owner : ∀ u w, (s.record u).version = .owner w →
    s.live w = true ∧ u ∈ (s.txn w).writes.map Prod.snd
  num_le : ∀ u n, (s.record u).version = .num n → n ≤ s.version
  lists : ∀ key, ∃ us, Visible s (s.map key) us ∧ ListOrder s key us

section Lists

variable {s s' : St} {key t : ℕ} {us us' : List ℕ}

/-- A list of which records are cut off, while nothing else of it changes. -/
theorem ListOrder.mono (h : ListOrder s key us) (hsub : us'.Sublist us)
    (hver : ∀ u ∈ us', (s'.record u).version = (s.record u).version)
    (htxn : ∀ u ∈ us', ∀ w, (s.record u).version = .owner w →
      (s'.txn w).rv = (s.txn w).rv ∧ ∀ p ∈ (s.txn w).writes, p ∈ (s'.txn w).writes) :
    ListOrder s' key us' := by
  refine ⟨fun u hu w hw => ?_, ?_, ?_⟩
  · rw [hver u hu] at hw
    exact (htxn u hu w hw).2 _ (h.mem_writes u (hsub.subset hu) w hw)
  · refine (h.newer.sublist hsub).imp_of_mem fun {v u} hv hu hvu n w hn hw => ?_
    rw [hver v hv] at hn
    rw [hver u hu] at hw
    show (s'.txn w).rv < n
    rw [(htxn u hu w hw).1]
    exact hvu n w hn hw
  · refine (h.descending.sublist hsub).imp_of_mem fun {v u} hv hu hvu m n hm hn => ?_
    rw [hver v hv] at hm
    rw [hver u hu] at hn
    exact hvu m n hm hn

/-- A record of a running transaction comes on top. -/
theorem ListOrder.cons_owner {u : ℕ} (h : ListOrder s key us)
    (hown : (s.record u).version = .owner t) (hmem : (key, u) ∈ (s.txn t).writes) :
    ListOrder s key (u :: us) := by
  have hnum : ∀ n, (s.record u).version ≠ .num n := fun n hn => by
    rw [hown] at hn
    cases hn
  refine ⟨List.forall_mem_cons.mpr ⟨fun w hw => ?_, h.mem_writes⟩,
    List.pairwise_cons.mpr ⟨fun v _ n w hn => absurd hn (hnum n), h.newer⟩,
    List.pairwise_cons.mpr ⟨fun v _ m n hm => absurd hm (hnum m), h.descending⟩⟩
  rw [hown] at hw
  cases hw
  exact hmem

/-- A list that passes validation has no committed record above one of the validated
transaction. -/
theorem NewerFirst.uppermost {record : ℕ → Update} {rv : ℕ → ℕ}
    (h : NewerFirst record rv us) (hpass : verdict record (rv t) us = .validated) :
    Uppermost record t us := by
  induction us with
  | nil => exact List.Pairwise.nil
  | cons v us ih =>
    obtain ⟨hv, hrest⟩ := List.pairwise_cons.mp h
    cases hver : (record v).version with
    | num m =>
      -- the newest committed record is old enough, so no record below it is `t`'s
      simp only [verdict, firstNum, hver] at hpass
      have hle : m ≤ rv t := by
        by_contra hnot
        rw [if_neg hnot] at hpass
        cases hpass
      have hno : ∀ u ∈ us, (record u).version ≠ .owner t := fun u hu hown =>
        absurd (hv u hu m t hver hown) (Nat.not_lt.mpr hle)
      refine List.pairwise_cons.mpr ⟨fun u hu hown => absurd hown (hno u hu), ?_⟩
      exact List.pairwise_of_forall_mem_list fun v _ u hu hown => absurd hown (hno u hu)
    | aborted | owner w =>
      simp only [verdict, firstNum, hver] at hpass
      refine List.pairwise_cons.mpr ⟨fun u _ _ m hm => ?_, ih hrest hpass⟩
      rw [hver] at hm
      cases hm

end Lists

/-! ## The loops, when they return -/

section Loops

variable {s s' : St} {t : ℕ}

/-- Every other transaction that owns a record is running. -/
def OwnersRun (s : St) (t : ℕ) : Prop :=
  ∀ u w, (s.record u).version = .owner w → w ≠ t → (s.txn w).state = .running

/-- The writers of the records are running. -/
theorem Order.ownersRun (h : Order s) (t : ℕ) : OwnersRun s t :=
  fun u w hw _ => (h.running w (h.owner u w hw).1).state

/-- A read that does not fail. -/
theorem read_eq_ok {u : ℕ} {update : Update} (h : s.read u = .ok update) :
    u ∉ s.freed ∧ update = s.record u := by
  unfold St.read at h
  split at h
  · cases h
  · rename_i hu
    exact ⟨hu, (Except.ok.inj h).symm⟩

/-- `validate_key` changes nothing, and its answer is the verdict on the list. -/
theorem validateKey_ok {fuel : ℕ} {val : Val} {state : State} (hrun : OwnersRun s t)
    (h : validateKey fuel s t val = .ok (s', state)) :
    s' = s ∧ ∀ us, Visible s val us → state = verdict s.record (s.txn t).rv us := by
  induction fuel generalizing val with
  | zero => cases h
  | succ fuel ih =>
    cases val with
    | dne | lit v =>
      cases h
      refine ⟨rfl, fun us hus => ?_⟩
      cases hus
      rfl
    | upd u =>
      rw [validateKey] at h
      cases hread : s.read u with
      | error f =>
        rw [hread] at h
        cases h
      | ok update =>
        obtain ⟨hfree, rfl⟩ := read_eq_ok hread
        rw [hread] at h
        -- a record that is passed over
        have hskip : (∀ n, (s.record u).version ≠ .num n) →
            validateKey fuel s t (s.record u).next = .ok (s', state) →
            s' = s ∧ ∀ us, Visible s (.upd u) us → state = verdict s.record (s.txn t).rv us := by
          intro hno hrest
          obtain ⟨hs, hverdict⟩ := ih hrest
          refine ⟨hs, fun us hus => ?_⟩
          cases hus with
          | freed hu => exact absurd hu hfree
          | cons _ hus =>
            rw [hverdict _ hus]
            simp only [verdict, firstNum]
        cases hv : (s.record u).version with
        | num n =>
          simp only [hv] at h
          cases h
          refine ⟨rfl, fun us hus => ?_⟩
          cases hus with
          | freed hu => exact absurd hu hfree
          | cons _ hus => simp only [verdict, firstNum, hv]
        | aborted =>
          simp only [hv] at h
          exact hskip (fun n hn => by rw [hv] at hn; cases hn) h
        | owner w =>
          simp only [hv] at h
          have hno : ∀ n, (s.record u).version ≠ .num n := fun n hn => by
            rw [hv] at hn
            cases hn
          split at h
          · exact hskip hno h
          · rename_i hw
            rw [hrun u w hv hw] at h
            exact hskip hno h

/-- The write set of `t` passes, on the lists as far as they can be read. -/
def Passed (s : St) (t : ℕ) (ws : List (ℕ × ℕ)) : Prop :=
  ∀ p ∈ ws, ∀ us, Visible s (s.map p.1) us → verdict s.record (s.txn t).rv us = .validated

/-- Nothing above a record of a transaction that passes is committed. -/
theorem ListOrder.uppermost {key : ℕ} {us : List ℕ} (h : ListOrder s key us)
    (hus : Visible s (s.map key) us) (hpass : Passed s t (s.txn t).writes) :
    Uppermost s.record t us := by
  by_cases hex : ∃ u ∈ us, (s.record u).version = .owner t
  · obtain ⟨u, hu, hown⟩ := hex
    exact h.newer.uppermost (hpass (key, u) (h.mem_writes u hu t hown) us hus)
  · exact List.pairwise_of_forall_mem_list fun a _ u hu hown => absurd ⟨u, hu, hown⟩ hex

/-- What `txn_validate` leaves behind. -/
theorem validateWrites_ok {fuel : ℕ} {ws : List (ℕ × ℕ)} (hrun : OwnersRun s t)
    (h : validateWrites fuel s t ws = .ok s') :
    s' = s ∧ Passed s t ws ∨ s' = s.setState t .aborted := by
  induction ws generalizing fuel with
  | nil =>
    cases fuel <;> cases h
    exact .inl ⟨rfl, fun p hp => absurd hp List.not_mem_nil⟩
  | cons p ws ih =>
    obtain ⟨key, u⟩ := p
    cases fuel with
    | zero => cases h
    | succ fuel =>
      rw [validateWrites] at h
      cases hkey : validateKey fuel s t (s.map key) with
      | error f =>
        rw [hkey] at h
        cases h
      | ok r =>
        obtain ⟨s₁, state⟩ := r
        obtain ⟨rfl, hverdict⟩ := validateKey_ok hrun hkey
        rw [hkey] at h
        by_cases hstate : state = .aborted
        · subst hstate
          cases h
          exact .inr rfl
        · have hrest : validateWrites fuel s₁ t ws = .ok s' := by
            cases state
            case aborted => exact absurd rfl hstate
            all_goals exact h
          refine (ih hrest).imp_left fun hpass => ⟨hpass.1, ?_⟩
          refine List.forall_mem_cons.mpr ⟨fun us hus => ?_, hpass.2⟩
          -- a verdict other than `aborted`
          have heq := hverdict us hus
          have hcases : verdict s₁.record (s₁.txn t).rv us = .validated
              ∨ verdict s₁.record (s₁.txn t).rv us = .aborted := by
            unfold verdict
            split
            · split_ifs
              · exact .inl rfl
              · exact .inr rfl
            · exact .inl rfl
          exact hcases.resolve_right fun hab => hstate (heq.trans hab)

/-- The search of `txn_map_get` changes nothing. -/
theorem getWalk_ok {fuel : ℕ} {val r : Val} (hrun : OwnersRun s t)
    (h : getWalk fuel s t val = .ok (s', r)) : s' = s := by
  induction fuel generalizing val with
  | zero => cases h
  | succ fuel ih =>
    cases val with
    | dne | lit v =>
      cases h
      rfl
    | upd u =>
      rw [getWalk] at h
      cases hread : s.read u with
      | error f =>
        rw [hread] at h
        cases h
      | ok update =>
        obtain ⟨-, rfl⟩ := read_eq_ok hread
        rw [hread] at h
        cases hv : (s.record u).version with
        | num n =>
          simp only [hv] at h
          split at h
          · cases h
            rfl
          · exact ih h
        | aborted =>
          simp only [hv] at h
          exact ih h
        | owner w =>
          simp only [hv] at h
          split at h
          · cases h
            rfl
          · rename_i hw
            rw [hrun u w hv hw] at h
            exact ih h

/-- `txn_validate` of a transaction that has just set its state. -/
theorem txnValidate_ok {fuel : ℕ} {state : State} (h : Order s) (ht : s.live t = true)
    (hval : txnValidate fuel (s.setState t .validating) t = .ok (s', state)) :
    s' = decided s t state
      ∧ (state = .validated ∧ Passed s t (s.txn t).writes ∨ state = .aborted) := by
  have hrun := h.running t ht
  have hdecided : ∀ st, (decided s t .validating).setState t st = decided s t st := by
    intro st
    simp [decided, St.setState]
  have hown : OwnersRun (decided s t .validating) t := by
    intro u w hw hne
    have htxn : (decided s t .validating).txn w = s.txn w := Function.update_of_ne hne _ _
    rw [htxn]
    exact h.ownersRun t u w hw hne
  cases fuel with
  | zero => cases hval
  | succ fuel =>
    have hstate : ((s.setState t .validating).txn t).state = .validating := by simp [St.setState]
    have hs₁ : (s.setState t .validating).acquireVersion t = decided s t .validating := by
      simp [St.acquireVersion, decided, St.setState, hrun.wv]
    have hws : ((decided s t .validating).txn t).writes = (s.txn t).writes := by simp [decided]
    rw [txnValidate] at hval
    simp only [hstate, hs₁, hws] at hval
    cases hv : validateWrites fuel (decided s t .validating) t (s.txn t).writes with
    | error f =>
      rw [hv] at hval
      cases hval
    | ok s₂ =>
      rw [hv] at hval
      obtain ⟨rfl, hpass⟩ | rfl := validateWrites_ok hown hv
      · have h₁ : ((decided s t .validating).txn t).state = .validating := by simp [decided]
        have h₂ : ((decided s t .validated).txn t).state = .validated := by simp [decided]
        simp only [h₁, if_true, hdecided, h₂] at hval
        cases hval
        refine ⟨rfl, .inl ⟨rfl, fun p hp us hus => ?_⟩⟩
        have hrv : ((decided s t .validating).txn t).rv = (s.txn t).rv := by simp [decided]
        have hverdict := hpass p hp us (hus.congr rfl fun _ _ => rfl)
        rw [hrv] at hverdict
        exact hverdict
      · have h₂ : ((decided s t .aborted).txn t).state = .aborted := by simp [decided]
        simp only [hdecided, h₂, reduceCtorEq, if_false] at hval
        cases hval
        exact ⟨rfl, .inr rfl⟩

/-- What `txn_commit` leaves, when it returns. -/
theorem txnCommit_ok {state : State} (h : Order s) (ht : s.live t = true)
    (hcommit : txnCommit s t = .ok (s', state)) :
    (state = .validated ∧ Passed s t (s.txn t).writes ∧ Ends s s' t (.num (s.version + 1))
        ∨ state = .aborted ∧ Ends s s' t .aborted)
      ∧ s'.version = s.version + 1 ∧ s'.txns = s.txns
      ∧ lowerCount (s.txn t).rv (s.version + 1) 4 2 s.active = .ok s'.active := by
  rw [txnCommit, if_neg (not_not.mpr (h.running t ht).state)] at hcommit
  cases hval : txnValidate (s.brk + (s.txn t).writes.length + 3) (s.setState t .validating) t with
  | error f =>
    rw [hval] at hcommit
    cases hcommit
  | ok r =>
    obtain ⟨s₁, st⟩ := r
    obtain ⟨rfl, hst⟩ := txnValidate_ok h ht hval
    have htxn : (decided s t st).txn t
        = { s.txn t with wv := s.version + 1, state := st } := Function.update_self _ _ _
    simp only [hval, htxn] at hcommit
    split at hcommit
    · cases hcommit
    · rename_i hlower
      cases hcommit
      have hdet : ∀ v, detach (decided s t state) (s.txn t).writes v
          = { decided s t state with
              record := (detach (decided s t state) (s.txn t).writes v).record } :=
        fun v => detach_fields _
      have hends : ∀ v active commits, Ends s { detach (decided s t state) (s.txn t).writes v with
          active := active
          live := Function.update (detach (decided s t state) (s.txn t).writes v).live t false
          commits := commits } t v := by
        intro v active commits
        refine ⟨?_, ?_, ?_, fun u => detach_record _ u, ?_, fun w hw => ?_, ?_, ?_⟩
        all_goals simp only
        all_goals rw [hdet]
        all_goals simp only [decided]
        · exact Function.update_of_ne hw _ _
        · exact Nat.le_succ _
      refine ⟨?_, ?_, ?_, ?_⟩
      · obtain ⟨rfl, hpass⟩ | rfl := hst
        · exact .inl ⟨rfl, hpass, hends _ _ _⟩
        · exact .inr ⟨rfl, hends _ _ _⟩
      · simp only
        rw [hdet]
        rfl
      · simp only
        rw [hdet]
        rfl
      · rw [hdet] at hlower
        exact hlower

end Loops

/-! ## One lemma per call -/

section Calls

variable {s s' : St} {t : ℕ}

/-- `txn_begin` keeps the order. -/
theorem Order.begin (h : Order s) (hs : txnBegin s = .ok s') : Order s' := by
  unfold txnBegin at hs
  split at hs
  · cases hs
  · cases hs
    have hnew : s.live s.txns = false := h.fresh _ le_rfl
    have hne : ∀ w, s.live w = true → w ≠ s.txns := by
      rintro w hw rfl
      rw [hnew] at hw
      cases hw
    refine ⟨h.next_lt, h.freed_lt, h.map_ok, h.heads, h.linked, fun w hw => ?_, fun w hw => ?_,
      fun u w hu => ?_, h.num_le, fun key => ?_⟩
    · by_cases hwt : w = s.txns
      · subst hwt
        refine ⟨Nat.lt_succ_self _, ?_, ?_, ?_, fun p hp => ?_⟩
        all_goals simp only [Function.update_self] at *
        · exact le_rfl
        · exact absurd hp List.not_mem_nil
      · simp only [Function.update_of_ne hwt] at hw
        have hr := h.running w hw
        refine ⟨Nat.lt_succ_of_lt hr.lt, ?_, ?_, ?_, ?_⟩
        all_goals simp only [Function.update_of_ne hwt]
        · exact hr.state
        · exact hr.wv
        · exact hr.rv_le
        · exact hr.writes
    · have hlt : s.txns < w := hw
      simp only [Function.update_of_ne hlt.ne']
      exact h.fresh w hlt.le
    · have hw := h.owner u w hu
      simp only [Function.update_of_ne (hne w hw.1)]
      exact hw
    · obtain ⟨us, hus, hl⟩ := h.lists key
      refine ⟨us, hus.congr rfl fun _ _ => rfl, hl.mono (List.Sublist.refl us) (fun _ _ => rfl)
        fun u _ w hw => ?_⟩
      simp only [Function.update_of_ne (hne w (h.owner u w hw).1)]
      exact ⟨trivial, fun p hp => hp⟩

/-- Nobody comes to a block that is not in use and not named. -/
structure Apart (s : St) (u : ℕ) : Prop where
  map : ∀ k, s.map k ≠ .upd u
  next : ∀ v, v ∉ s.freed → (s.record v).next ≠ .upd u
  writes : ∀ w, s.live w = true → ∀ p ∈ (s.txn w).writes, p.2 ≠ u

/-- A block that nobody has the address of is apart from all lists. -/
theorem Order.apart (h : Order s) {u : ℕ} (hu : s.Unused u) (hnamed : ¬ Named s u) :
    Apart s u where
  map k hk := by
    obtain ⟨hlt, hfree⟩ := h.map_ok k u hk
    rcases hu with rfl | hmem
    · exact hlt.false
    · exact hfree hmem
  next v hv hvu :=
    hnamed (.inl ⟨v, List.mem_range.mpr (h.next_lt v u hvu).1, hv, hvu⟩)
  writes w hw p hp heq :=
    hnamed (.inr ⟨w, List.mem_range.mpr (h.running w hw).lt, hw, heq ▸ List.mem_map_of_mem hp⟩)

/-- A block that was never used is not named. -/
theorem Order.not_named_brk (h : Order s) : ¬ Named s s.brk := by
  rintro (⟨v, -, -, hv⟩ | ⟨w, -, hw, hmem⟩)
  · exact (h.next_lt v _ hv).2.false
  · obtain ⟨p, hp, heq⟩ := List.mem_map.mp hmem
    exact (((h.running w hw).writes p hp).1.trans_eq heq.symm).false

/-- The lists of before, after a record was pushed somewhere. -/
theorem Pushed.listOrder {u key value k : ℕ} (hp : Pushed s s' u t key value) (h : Order s)
    (ha : Apart s u) : ∃ us, Visible s' (s.map k) us ∧ ListOrder s' k us := by
  obtain ⟨us, hus, hl⟩ := h.lists k
  obtain ⟨hus', hnot⟩ := hus.avoid (ha.map k) ha.next hp.freed hp.record
  have hver : ∀ v ∈ us, (s'.record v).version = (s.record v).version := by
    intro v hv
    rw [hp.record v fun heq => hnot (heq ▸ hv)]
  exact ⟨us, hus', hl.mono (List.Sublist.refl us) hver fun v _ w _ =>
    ⟨(hp.txn_eq w).1, fun p hpw => hp.mem_writes.mpr (.inl hpw)⟩⟩

/-- A new record on top of a list is its transaction's own. -/
theorem Pushed.order {u key value : ℕ} (hp : Pushed s s' u t key value) (h : Order s)
    (ht : s.live t = true) (hu : s.Unused u) (ha : Apart s u) : Order s' := by
  have hlt : u < s'.brk := by
    rw [hp.brk]
    rcases hu with rfl | hmem
    · rw [if_pos rfl]
      exact Nat.lt_succ_self _
    · have := h.freed_lt u hmem
      split <;> omega
  have hle : s.brk ≤ s'.brk := by
    rw [hp.brk]
    split <;> omega
  have hfree : u ∉ s'.freed := hp.taken fun hmem => (h.freed_lt _ hmem).false
  refine ⟨fun v x hvx => ?_, fun v hv => ?_, fun k x hk => ?_, fun k k' x hk hk' => ?_,
    fun v x k hv hvx hk => ?_, fun w hw => ?_, fun w hw => ?_, fun v w hv => ?_,
    fun v n hv => ?_, fun k => ?_⟩
  · by_cases hvu : v = u
    · rw [hvu, hp.record_self] at hvx
      exact ⟨hvu ▸ hlt, (h.map_ok key x hvx).1.trans_le hle⟩
    · rw [hp.record v hvu] at hvx
      obtain ⟨h₁, h₂⟩ := h.next_lt v x hvx
      exact ⟨h₁.trans_le hle, h₂.trans_le hle⟩
  · have hvu : v ≠ u := fun heq => hfree (heq ▸ hv)
    exact (h.freed_lt v ((hp.freed v hvu).mp hv)).trans_le hle
  · by_cases hkk : k = key
    · rw [hkk, hp.map_self] at hk
      cases hk
      exact ⟨hlt, hfree⟩
    · rw [hp.map k hkk] at hk
      obtain ⟨h₁, h₂⟩ := h.map_ok k x hk
      have hxu : x ≠ u := fun heq => ha.map k (heq ▸ hk)
      exact ⟨h₁.trans_le hle, fun hmem => h₂ ((hp.freed x hxu).mp hmem)⟩
  · by_cases hkk : k = key
    · by_cases hkk' : k' = key
      · exact hkk.trans hkk'.symm
      · rw [hkk, hp.map_self] at hk
        rw [hp.map k' hkk', ← hk] at hk'
        exact absurd hk' (ha.map k')
    · rw [hp.map k hkk] at hk
      by_cases hkk' : k' = key
      · rw [hkk', hp.map_self] at hk'
        rw [← hk'] at hk
        exact absurd hk (ha.map k)
      · rw [hp.map k' hkk'] at hk'
        exact h.heads k k' x hk hk'
  · -- the record that was first in the list of `key` is now behind the new one
    have hxu : x ≠ u := by
      rintro rfl
      by_cases hvx' : v = x
      · rw [hvx', hp.record_self] at hvx
        exact ha.map key hvx
      · rw [hp.record v hvx'] at hvx
        exact ha.next v (fun hmem => hv ((hp.freed v hvx').mpr hmem)) hvx
    have hkk : k ≠ key := by
      rintro rfl
      rw [hp.map_self] at hk
      exact hxu (Val.upd.inj hk).symm
    rw [hp.map k hkk] at hk
    by_cases hvu : v = u
    · rw [hvu, hp.record_self] at hvx
      exact hkk (h.heads k key x hk hvx)
    · rw [hp.record v hvu] at hvx
      exact h.linked v x k (fun hmem => hv ((hp.freed v hvu).mpr hmem)) hvx hk
  · rw [hp.live] at hw
    exact hp.running (h.running w hw) hle hlt (ha.writes w hw)
  · rw [hp.live]
    exact h.fresh w (hp.txns ▸ hw)
  · rw [hp.live]
    by_cases hvu : v = u
    · rw [hvu, hp.record_self] at hv
      cases hv
      exact ⟨ht, hvu ▸ List.mem_map_of_mem (hp.mem_writes.mpr (.inr ⟨rfl, rfl⟩))⟩
    · rw [hp.record v hvu] at hv
      obtain ⟨hw, hmem⟩ := h.owner v w hv
      exact ⟨hw, List.map_subset _ (fun p hpw => hp.mem_writes.mpr (.inl hpw)) hmem⟩
  · rw [hp.version]
    by_cases hvu : v = u
    · rw [hvu, hp.record_self] at hv
      cases hv
    · rw [hp.record v hvu] at hv
      exact h.num_le v n hv
  · by_cases hkk : k = key
    · obtain ⟨us, hus, hl⟩ := hp.listOrder (k := k) h ha
      refine ⟨u :: us, ?_, ?_⟩
      · rw [hkk, hp.map_self]
        refine .cons hfree ?_
        rw [hp.record_self, ← hkk]
        exact hus
      · exact hl.cons_owner (hp.record_self ▸ rfl) (hkk ▸ hp.mem_writes.mpr (.inr ⟨rfl, rfl⟩))
    · rw [hp.map k hkk]
      exact hp.listOrder h ha

/-- **`txn_map_set`** keeps the order when its block is not named. -/
theorem Order.set (h : Order s) (ht : s.live t = true) {u : ℕ} (hu : s.Unused u)
    (hnamed : ¬ Named s u) (key value : ℕ) : Order (txnMapSet s u t key value) :=
  (txnMapSet_pushed (h.running t ht).state u key value).order h ht hu (h.apart hu hnamed)

/-- `txn_abort` ends its transaction. -/
theorem txnAbort_ends (hrun : Running s t) : Ends s (txnAbort s t) t .aborted := by
  have habort : txnAbort s t =
      { detach s (s.txn t).writes .aborted with live := Function.update s.live t false } := by
    rw [txnAbort, if_neg (not_not.mpr hrun.state)]
  have hfields := detach_fields (s := s) (v := .aborted) (s.txn t).writes
  rw [habort]
  refine ⟨?_, ?_, ?_, fun u => detach_record _ u, rfl, fun w _ => ?_, ?_, ?_⟩
  all_goals rw [hfields]

/-- `txn_abort` leaves the versions alone. -/
theorem txnAbort_fields (s : St) (t : ℕ) : (txnAbort s t).active = s.active
    ∧ (txnAbort s t).txns = s.txns ∧ (txnAbort s t).version = s.version := by
  unfold txnAbort
  split
  · exact ⟨rfl, rfl, rfl⟩
  · rw [detach_fields]
    exact ⟨rfl, rfl, rfl⟩

/-- What the end of `t` makes of its records. -/
structure Decided (s s' : St) (t : ℕ) (v : Ver) : Prop where
  version : ∀ u, (s'.record u).version
    = if (s.record u).version = .owner t then v else (s.record u).version
  owner : ∀ u w, (s'.record u).version = .owner w → (s.record u).version = .owner w ∧ w ≠ t
  verdict : v = .aborted
    ∨ v = .num (s.version + 1) ∧ s'.version = s.version + 1 ∧ Passed s t (s.txn t).writes

/-- A transaction that ends has decided on its records. -/
theorem Ends.decided {v : Ver} (he : Ends s s' t v) (h : Order s) (ht : s.live t = true)
    (hv : v = .aborted ∨ v = .num (s.version + 1) ∧ s'.version = s.version + 1
      ∧ Passed s t (s.txn t).writes) : Decided s s' t v := by
  have hver : ∀ u, (s'.record u).version
      = if (s.record u).version = .owner t then v else (s.record u).version := by
    intro u
    rw [he.record u]
    by_cases hu : u ∈ (s.txn t).writes.map Prod.snd
    · obtain ⟨p, hp, rfl⟩ := List.mem_map.mp hu
      rw [if_pos hu, if_pos ((h.running t ht).writes p hp).2]
    · rw [if_neg hu, if_neg fun hown => hu (h.owner u t hown).2]
  refine ⟨hver, fun u w hw => ?_, hv⟩
  rw [hver u] at hw
  split at hw
  · obtain rfl | ⟨rfl, -⟩ := hv <;> cases hw
  · rename_i hne
    refine ⟨hw, ?_⟩
    rintro rfl
    exact hne hw

/-- A list keeps its order: the records of `t` are aborted, or get a number above all others,
having none of these above them. -/
theorem Decided.listOrder {v : Ver} {key : ℕ} {us : List ℕ} (hd : Decided s s' t v) (h : Order s)
    (htxn : ∀ w, w ≠ t → s'.txn w = s.txn w) (hus : Visible s (s.map key) us)
    (hl : ListOrder s key us) : ListOrder s' key us := by
  refine ⟨fun u hu w hw => ?_, ?_, ?_⟩
  · obtain ⟨hold, hne⟩ := hd.owner u w hw
    rw [htxn w hne]
    exact hl.mem_writes u hu w hold
  · refine hl.newer.imp_of_mem fun {a u} _ _ hau n w hn hw => ?_
    obtain ⟨hold, hne⟩ := hd.owner u w hw
    show (s'.txn w).rv < n
    rw [htxn w hne]
    rw [hd.version a] at hn
    split at hn
    · -- the new number is above every read version
      obtain rfl | ⟨rfl, -⟩ := hd.verdict
      · cases hn
      · cases hn
        exact Nat.lt_succ_of_le (h.running w (h.owner u w hold).1).rv_le
    · exact hau n w hn hold
  · obtain rfl | ⟨rfl, -, hpass⟩ := hd.verdict
    · refine hl.descending.imp fun {a u} hau m n hm hn => ?_
      rw [hd.version a] at hm
      rw [hd.version u] at hn
      split at hm
      · cases hm
      split at hn
      · cases hn
      exact hau m n hm hn
    · -- a list with a record of `t` passed validation: nothing above that record is committed
      have hupper : Uppermost s.record t us := hl.uppermost hus hpass
      refine (hl.descending.and hupper).imp fun {a u} hau m n hm hn => ?_
      rw [hd.version a] at hm
      rw [hd.version u] at hn
      split at hn
      · rename_i hown
        split at hm
        · cases hm
          cases hn
          exact le_rfl
        · exact absurd hm (hau.2 hown m)
      · split at hm
        · cases hm
          exact (h.num_le u n hn).trans (Nat.le_succ _)
        · exact hau.1 m n hm hn

/-- A transaction that ends keeps the order. -/
theorem Ends.order {v : Ver} (he : Ends s s' t v) (h : Order s) (ht : s.live t = true)
    (htxns : s'.txns = s.txns)
    (hv : v = .aborted ∨ v = .num (s.version + 1) ∧ s'.version = s.version + 1
      ∧ Passed s t (s.txn t).writes) : Order s' := by
  have hd := he.decided h ht hv
  refine ⟨fun u w huw => ?_, fun u hu => ?_, fun k u hk => ?_, fun k k' u => ?_,
    fun u w k hu huw => ?_, fun w hw => ?_, fun w hw => ?_, fun u w hu => ?_, fun u n hu => ?_,
    fun k => ?_⟩
  · rw [he.next_eq] at huw
    rw [he.brk]
    exact h.next_lt u w huw
  · rw [he.freed] at hu
    rw [he.brk]
    exact h.freed_lt u hu
  · rw [he.map] at hk
    rw [he.brk, he.freed]
    exact h.map_ok k u hk
  · rw [he.map]
    exact h.heads k k' u
  · rw [he.freed] at hu
    rw [he.next_eq] at huw
    rw [he.map]
    exact h.linked u w k hu huw
  · obtain ⟨hl, hne⟩ := (he.live_iff w).mp hw
    have hr := h.running w hl
    have hw' := he.txn w hne
    refine ⟨htxns ▸ hr.lt, hw' ▸ hr.state, hw' ▸ hr.wv, ?_, fun p hp => ?_⟩
    · rw [hw']
      exact hr.rv_le.trans he.version
    · rw [hw'] at hp
      obtain ⟨hb, hown⟩ := hr.writes p hp
      rw [he.brk, hd.version, hown, if_neg fun heq => hne (Ver.owner.inj heq)]
      exact ⟨hb, rfl⟩
  · rw [htxns] at hw
    rw [he.live]
    by_cases hwt : w = t
    · rw [hwt, Function.update_self]
    · rw [Function.update_of_ne hwt]
      exact h.fresh w hw
  · obtain ⟨hold, hne⟩ := hd.owner u w hu
    rw [he.live, Function.update_of_ne hne, he.txn w hne]
    exact h.owner u w hold
  · rw [hd.version u] at hu
    split at hu
    · obtain rfl | ⟨rfl, hversion, -⟩ := hv
      · cases hu
      · cases hu
        exact hversion.ge
    · exact (h.num_le u n hu).trans he.version
  · obtain ⟨us, hus, hl⟩ := h.lists k
    rw [he.map]
    exact ⟨us, hus.congr he.freed fun u _ => he.next_eq u, hd.listOrder h he.txn hus hl⟩

/-! ## The collector -/

/-- What the collection changes: it frees records, clears the links of freed ones, and
merges a freed record into the map. -/
structure Collected (s s' : St) : Prop where
  freed : ∀ u, u ∈ s.freed → u ∈ s'.freed
  version_eq : ∀ u, (s'.record u).version = (s.record u).version
  next_eq : ∀ u, u ∉ s'.freed → (s'.record u).next = (s.record u).next
  next_upd : ∀ u v, (s'.record u).next = .upd v → (s.record u).next = .upd v
  map : ∀ key, s'.map key = s.map key ∨ ∃ v, s'.map key = .lit v
  rest : s'.brk = s.brk ∧ s'.txn = s.txn ∧ s'.live = s.live ∧ s'.txns = s.txns
    ∧ s'.version = s.version

/-- Nothing is collected. -/
theorem Collected.refl (s : St) : Collected s s :=
  ⟨fun _ hu => hu, fun _ => rfl, fun _ _ => rfl, fun _ _ huv => huv, fun _ => .inl rfl,
    rfl, rfl, rfl, rfl, rfl⟩

/-- One collection after the other. -/
theorem Collected.trans {s'' : St} (h : Collected s s') (h' : Collected s' s'') :
    Collected s s'' := by
  refine ⟨fun u hu => h'.freed u (h.freed u hu), fun u => (h'.version_eq u).trans (h.version_eq u),
    fun u hu => ?_, fun u v huv => h.next_upd u v (h'.next_upd u v huv), fun key => ?_, ?_⟩
  · rw [h'.next_eq u hu, h.next_eq u fun hu' => hu (h'.freed u hu')]
  · rcases h'.map key with heq | hlit
    · rw [heq]
      exact h.map key
    · exact .inr hlit
  · obtain ⟨a₁, a₂, a₃, a₄, a₅⟩ := h.rest
    obtain ⟨b₁, b₂, b₃, b₄, b₅⟩ := h'.rest
    exact ⟨b₁.trans a₁, b₂.trans a₂, b₃.trans a₃, b₄.trans a₄, b₅.trans a₅⟩

/-- Clearing the link of a record that has none, or that is freed with it. -/
theorem collected_setNext {u : ℕ} {freed : List ℕ} (hfreed : ∀ v ∈ s.freed, v ∈ freed)
    (hu : u ∈ freed ∨ (s.record u).next = .dne) :
    Collected s { s.setNext u .dne with freed := freed } := by
  have hrec : ∀ v, v ≠ u → (s.setNext u .dne).record v = s.record v := fun v hv =>
    Function.update_of_ne hv _ _
  have hself : (s.setNext u .dne).record u = { s.record u with next := .dne } :=
    Function.update_self _ _ _
  refine ⟨hfreed, fun v => ?_, fun v hv => ?_, fun v w hvw => ?_, fun _ => .inl rfl,
    rfl, rfl, rfl, rfl, rfl⟩
  · by_cases hvu : v = u
    · simp only [hvu, hself]
    · simp only [hrec v hvu]
  · by_cases hvu : v = u
    · subst hvu
      simp only [hself]
      exact (hu.resolve_left hv).symm
    · simp only [hrec v hvu]
  · by_cases hvu : v = u
    · subst hvu
      simp only [hself] at hvw
      cases hvw
    · simp only [hrec v hvu] at hvw
      exact hvw

/-- The records that follow are freed. -/
theorem freeTail_collected {fuel n : ℕ} (h : freeTail fuel s n = .ok s') : Collected s s' := by
  induction fuel generalizing s n with
  | zero => cases h
  | succ fuel ih =>
    rw [freeTail] at h
    cases hread : s.read n with
    | error f =>
      rw [hread] at h
      cases h
    | ok update =>
      obtain ⟨-, rfl⟩ := read_eq_ok hread
      rw [hread] at h
      have hcons : Collected s { s.setNext n .dne with freed := n :: s.freed } :=
        collected_setNext (fun v hv => List.mem_cons_of_mem _ hv) (.inl List.mem_cons_self)
      cases hnext : (s.record n).next with
      | dne =>
        simp only [hnext] at h
        cases h
        exact collected_setNext (fun _ hv => hv) (.inr hnext)
      | lit v =>
        simp only [hnext] at h
        cases h
        exact hcons
      | upd m =>
        simp only [hnext] at h
        exact hcons.trans (ih h)

/-- What the free loop frees, besides the record it starts at, a record linked to. -/
theorem freeTail_new {fuel n : ℕ} (h : freeTail fuel s n = .ok s') : ∀ v ∈ s'.freed,
    v ∈ s.freed ∨ v = n ∨ ∃ x, x ∉ s.freed ∧ (s.record x).next = .upd v := by
  induction fuel generalizing s n with
  | zero => cases h
  | succ fuel ih =>
    rw [freeTail] at h
    cases hread : s.read n with
    | error f =>
      rw [hread] at h
      cases h
    | ok update =>
      obtain ⟨hn, rfl⟩ := read_eq_ok hread
      rw [hread] at h
      have hcons : ∀ v ∈ n :: s.freed, v ∈ s.freed ∨ v = n
          ∨ ∃ x, x ∉ s.freed ∧ (s.record x).next = .upd v :=
        fun v hv => (List.mem_cons.mp hv).elim (fun heq => .inr (.inl heq)) .inl
      cases hnext : (s.record n).next with
      | dne =>
        simp only [hnext] at h
        cases h
        exact fun v hv => .inl hv
      | lit w =>
        simp only [hnext] at h
        cases h
        exact hcons
      | upd m =>
        simp only [hnext] at h
        intro v hv
        rcases ih h v hv with hmem | rfl | ⟨x, hx, hxv⟩
        · exact hcons v hmem
        · exact .inr (.inr ⟨n, hn, hnext⟩)
        · have hxn : x ≠ n := fun heq => hx (heq ▸ List.mem_cons_self)
          have hrec : (s.setNext n .dne).record x = s.record x := Function.update_of_ne hxn _ _
          exact .inr (.inr ⟨x, fun hmem => hx (List.mem_cons_of_mem _ hmem), hrec ▸ hxv⟩)

/-- What the collection at record `u` does: nothing, or it frees the records behind `u`, or it
merges `u` into the map. -/
theorem collect_cases {key u : ℕ} {newest : Val} (h : collect s key u newest = .ok s') :
    s' = s
      ∨ (∃ n, u ∉ s.freed ∧ (s.record u).next = .upd n
        ∧ (s.record n).version.lt (slMinKey s.active) = true ∧ freeTail (s.brk + 1) s n = .ok s')
      ∨ s.map key = .upd u ∧ (s.record u).version.le (slMinKey s.active) = true
        ∧ s' = { s with
            map := Function.update s.map key (.lit (s.record u).value)
            freed := u :: s.freed } := by
  rw [collect] at h
  cases hread : s.read u with
  | error f =>
    rw [hread] at h
    cases h
  | ok update =>
    obtain ⟨hu, rfl⟩ := read_eq_ok hread
    rw [hread] at h
    cases hnext : (s.record u).next with
    | upd n =>
      simp only [hnext] at h
      cases hread' : s.read n with
      | error f =>
        rw [hread'] at h
        cases h
      | ok next =>
        obtain ⟨-, rfl⟩ := read_eq_ok hread'
        simp only [hread'] at h
        split_ifs at h with hlt
        · exact .inr (.inl ⟨n, hu, rfl, hlt, h⟩)
        · exact .inl (Except.ok.inj h).symm
    | dne | lit v =>
      simp only [hnext] at h
      split_ifs at h with hm hcas
      · have hmap : s.map key = .upd u := hcas
        simp only [mapCas, if_pos hmap] at h
        exact .inr (.inr ⟨hmap, hm.2, (Except.ok.inj h).symm⟩)
      · have hmap : s.map key ≠ .upd u := hcas
        simp only [mapCas, if_neg hmap] at h
        exact .inl (Except.ok.inj h).symm
      · exact .inl (Except.ok.inj h).symm

/-- `txn_map_get` searches and collects. -/
theorem txnMapGet_cases {key r : ℕ} (hrun : OwnersRun s t) (ht : (s.txn t).state = .running)
    (hget : txnMapGet s t key = .ok (s', r)) : s' = s
      ∨ ∃ u, getWalk (s.brk + 2) s t (s.map key) = .ok (s, .upd u)
        ∧ collect s key u (s.map key) = .ok s' := by
  rw [txnMapGet, if_neg (not_not.mpr ht)] at hget
  cases hwalk : getWalk (s.brk + 2) s t (s.map key) with
  | error f =>
    rw [hwalk] at hget
    cases hget
  | ok w =>
    obtain ⟨s₁, val⟩ := w
    obtain rfl := getWalk_ok hrun hwalk
    rw [hwalk] at hget
    cases val with
    | dne | lit v =>
      cases hget
      exact .inl rfl
    | upd u =>
      cases hcol : collect s₁ key u (s₁.map key) with
      | error f =>
        simp only [hcol] at hget
        cases hget
      | ok s₂ =>
        simp only [hcol] at hget
        cases hget
        exact .inr ⟨u, rfl, hcol⟩

/-- What is freed by the collection was linked from a record, or merged into the map. -/
theorem collect_new {key u : ℕ} {newest : Val} (h : collect s key u newest = .ok s') :
    ∀ v ∈ s'.freed, v ∈ s.freed ∨ (∃ x, x ∉ s.freed ∧ (s.record x).next = .upd v)
      ∨ ∃ k, s.map k = .upd v ∧ s'.map k ≠ .upd v := by
  rcases collect_cases h with rfl | ⟨n, hu, hnext, -, htail⟩ | ⟨hmap, -, rfl⟩
  · exact fun v hv => .inl hv
  · intro v hv
    rcases freeTail_new htail v hv with hmem | rfl | hlink
    · exact .inl hmem
    · exact .inr (.inl ⟨u, hu, hnext⟩)
    · exact .inr (.inl hlink)
  · intro v hv
    rcases List.mem_cons.mp hv with rfl | hmem
    · refine .inr (.inr ⟨key, hmap, ?_⟩)
      simp only [Function.update_self]
      exact Val.noConfusion
    · exact .inl hmem

/-- The collector frees or merges. -/
theorem collect_collected {key u : ℕ} {newest : Val} (h : collect s key u newest = .ok s') :
    Collected s s' := by
  rcases collect_cases h with rfl | ⟨n, -, -, -, htail⟩ | ⟨-, -, rfl⟩
  · exact Collected.refl _
  · exact freeTail_collected htail
  · refine ⟨fun _ hv => List.mem_cons_of_mem _ hv, fun _ => rfl, fun _ _ => rfl,
      fun _ _ hvw => hvw, fun k => ?_, rfl, rfl, rfl, rfl, rfl⟩
    by_cases hk : k = key
    · simp only [hk, Function.update_self]
      exact .inr ⟨_, rfl⟩
    · exact .inl (Function.update_of_ne hk _ _)

/-- The collection only cuts lists off, and frees no record that is first in a list. -/
theorem Collected.order (hc : Collected s s') (hnew : ∀ v ∈ s'.freed, v ∈ s.freed
      ∨ (∃ x, x ∉ s.freed ∧ (s.record x).next = .upd v) ∨ ∃ k, s.map k = .upd v ∧ s'.map k ≠ .upd v)
    (h : Order s) : Order s' := by
  obtain ⟨hbrk, htxn, hlive, htxns, hversion⟩ := hc.rest
  have hmap : ∀ {k u}, s'.map k = .upd u → s.map k = .upd u := by
    intro k u hk
    rcases hc.map k with heq | ⟨v, hlit⟩
    · exact heq ▸ hk
    · rw [hlit] at hk
      cases hk
  refine ⟨fun u v huv => ?_, fun u hu => ?_, fun k u hk => ⟨?_, fun hu => ?_⟩,
    fun k k' u hk hk' => h.heads k k' u (hmap hk) (hmap hk'), fun u v k hu huv hk => ?_,
    fun w hw => ?_, fun w hw => ?_, fun u w hu => ?_, fun u n hu => ?_, fun k => ?_⟩
  · rw [hbrk]
    exact h.next_lt u v (hc.next_upd u v huv)
  · rw [hbrk]
    rcases hnew u hu with hold | ⟨x, -, hx⟩ | ⟨k, hk, -⟩
    · exact h.freed_lt u hold
    · exact (h.next_lt x u hx).2
    · exact (h.map_ok k u hk).1
  · rw [hbrk]
    exact (h.map_ok k u (hmap hk)).1
  · rcases hnew u hu with hold | ⟨x, hx, hxu⟩ | ⟨k', hk', hne⟩
    · exact (h.map_ok k u (hmap hk)).2 hold
    · exact h.linked x u k hx hxu (hmap hk)
    · exact hne (h.heads k k' u (hmap hk) hk' ▸ hk)
  · exact h.linked u v k (fun hold => hu (hc.freed u hold)) (hc.next_upd u v huv) (hmap hk)
  · rw [hlive] at hw
    have hr := h.running w hw
    refine ⟨htxns ▸ hr.lt, htxn ▸ hr.state, htxn ▸ hr.wv, htxn ▸ hversion ▸ hr.rv_le,
      fun p hp => ?_⟩
    rw [htxn] at hp
    rw [hbrk, hc.version_eq]
    exact hr.writes p hp
  · rw [hlive]
    exact h.fresh w (htxns ▸ hw)
  · rw [hc.version_eq] at hu
    rw [hlive, htxn]
    exact h.owner u w hu
  · rw [hc.version_eq] at hu
    rw [hversion]
    exact h.num_le u n hu
  · rcases hc.map k with heq | ⟨v, hlit⟩
    · obtain ⟨us, hus, hl⟩ := h.lists k
      obtain ⟨us', hus', hpre⟩ := hus.cut hc.freed hc.next_eq
      rw [heq]
      refine ⟨us', hus', hl.mono hpre.sublist (fun u _ => hc.version_eq u) fun u _ w _ => ?_⟩
      rw [htxn]
      exact ⟨rfl, fun p hp => hp⟩
    · rw [hlit]
      exact ⟨[], .lit v, by simp, List.Pairwise.nil, List.Pairwise.nil⟩

/-- **`txn_map_get`** keeps the order. -/
theorem Order.get {key r : ℕ} (h : Order s) (ht : s.live t = true)
    (hget : txnMapGet s t key = .ok (s', r)) : Order s' := by
  rcases txnMapGet_cases (h.ownersRun t) (h.running t ht).state hget with rfl | ⟨u, -, hcol⟩
  · exact h
  · exact (collect_collected hcol).order (collect_new hcol) h

end Calls

/-! ## Whole runs -/

/-- There is nothing to be ordered at the start. -/
theorem init_order : Order init := by
  refine ⟨?_, ?_, ?_, ?_, ?_, ?_, fun _ _ => rfl, ?_, ?_, fun key => ⟨[], .dne, by simp,
    List.Pairwise.nil, List.Pairwise.nil⟩⟩
  · exact fun _ _ h => by cases h
  · exact fun _ h => absurd h List.not_mem_nil
  · exact fun _ _ h => by cases h
  · exact fun _ _ _ h => by cases h
  · exact fun _ _ _ _ h => by cases h
  · exact fun _ h => by cases h
  · exact fun _ _ h => by cases h
  · exact fun _ _ h => by cases h

/-- What a call that returned has done. -/
theorem step_cases {s s' : St} {c : Call} (hstep : stepAny s c = some s') :
    match c with
    | .begin => txnBegin s = .ok s'
    | .set t key value => s.live t = true ∧ s' = txnMapSet s s.brk t key value
    | .get t key => s.live t = true ∧ ∃ r, txnMapGet s t key = .ok (s', r)
    | .commit t => s.live t = true ∧ ∃ state, txnCommit s t = .ok (s', state)
    | .abort t => s.live t = true ∧ s' = txnAbort s t := by
  cases c with
  | begin =>
    simp only [stepAny, step] at hstep
    cases hb : txnBegin s with
    | error f =>
      rw [hb] at hstep
      cases hstep
    | ok s₁ =>
      rw [hb] at hstep
      cases hstep
      rfl
  | set t key value =>
    simp only [stepAny, Option.ite_none_right_eq_some] at hstep
    exact ⟨hstep.1.1, (Option.some.inj hstep.2).symm⟩
  | get t key =>
    simp only [stepAny, step, Option.filter_eq_some_iff, Option.ite_none_right_eq_some] at hstep
    obtain ⟨⟨ht, hget⟩, -⟩ := hstep
    refine ⟨ht, ?_⟩
    cases hg : txnMapGet s t key with
    | error f =>
      rw [hg] at hget
      cases hget
    | ok r =>
      rw [hg] at hget
      cases hget
      exact ⟨r.2, rfl⟩
  | commit t =>
    simp only [stepAny, step, Option.ite_none_right_eq_some] at hstep
    obtain ⟨ht, hcommit⟩ := hstep
    refine ⟨ht, ?_⟩
    cases hc : txnCommit s t with
    | error f =>
      rw [hc] at hcommit
      cases hcommit
    | ok r =>
      rw [hc] at hcommit
      cases hcommit
      exact ⟨r.2, rfl⟩
  | abort t =>
    simp only [stepAny, step, Option.ite_none_right_eq_some] at hstep
    exact ⟨hstep.1, (Option.some.inj hstep.2).symm⟩

/-- Every call keeps the order when `nbd_malloc` returns a block that was never used. -/
theorem order_step {s s' : St} {c : Call} (h : Order s) (hstep : stepAny s c = some s') :
    Order s' := by
  have hcall := step_cases hstep
  cases c with
  | begin => exact h.begin hcall
  | set t key value =>
    obtain ⟨ht, rfl⟩ := hcall
    exact h.set ht (.inl rfl) h.not_named_brk key value
  | get t key =>
    obtain ⟨ht, r, hget⟩ := hcall
    exact h.get ht hget
  | commit t =>
    obtain ⟨ht, state, hcommit⟩ := hcall
    obtain ⟨⟨-, hpass, hends⟩ | ⟨-, hends⟩, hversion, htxns, -⟩ := txnCommit_ok h ht hcommit
    · exact hends.order h ht htxns (.inr ⟨rfl, hversion, hpass⟩)
    · exact hends.order h ht htxns (.inl rfl)
  | abort t =>
    obtain ⟨ht, rfl⟩ := hcall
    exact (txnAbort_ends (h.running t ht)).order h ht (txnAbort_fields s t).2.1 (.inl rfl)

/-- **The order holds in every run** with fresh blocks. -/
theorem order_run {s s' : St} {calls : List Call} (h : Order s)
    (hrun : run stepAny s calls = some s') : Order s' :=
  run_invariant_always (fun _ _ _ h hstep => order_step h hstep) h hrun

/-- A call other than `txn_map_set` allocates no record. -/
theorem stepOn_cases {s s' : St} {e : Call × ℕ} (hstep : stepOn s e = some s') :
    (∃ t key value, e.1 = .set t key value ∧ s.live t = true ∧ s.Unused e.2
        ∧ s' = txnMapSet s e.2 t key value)
      ∨ (∀ t key value, e.1 ≠ .set t key value) ∧ stepAny s e.1 = some s' := by
  obtain ⟨c, u⟩ := e
  cases c with
  | set t key value =>
    simp only [stepOn, Option.ite_none_right_eq_some] at hstep
    obtain ⟨⟨ht, -, hu⟩, heq⟩ := hstep
    exact .inl ⟨t, key, value, rfl, ht, hu, (Option.some.inj heq).symm⟩
  | begin | get | commit | abort => exact .inr ⟨fun _ _ _ heq => Call.noConfusion heq, hstep⟩

/-- Every call keeps the order while nobody is given a block that is named. -/
theorem order_stepOn {s s' : St} {e : Call × ℕ} (h : Order s) (hok : Unnamed s e)
    (hstep : stepOn s e = some s') : Order s' := by
  obtain ⟨c, u⟩ := e
  rcases stepOn_cases hstep with ⟨t, key, value, rfl, ht, hu, rfl⟩ | ⟨-, hstep⟩
  · exact h.set ht hu hok key value
  · exact order_step h hstep

section Keeps

variable {s s' : St} {u v t key r : ℕ}

/-- What is still named afterwards was named before, when nothing is linked or written. -/
theorem Named.before (h : Named s' v) (ho : Order s) (hbrk : s'.brk = s.brk)
    (hfreed : ∀ x ∈ s.freed, x ∈ s'.freed)
    (hnext : ∀ x, (s'.record x).next = .upd v → (s.record x).next = .upd v)
    (hwrites : ∀ w, s'.live w = true → ∀ p ∈ (s'.txn w).writes,
      s.live w = true ∧ p ∈ (s.txn w).writes) : Named s v := by
  rcases h with ⟨x, hx, hfree, hxv⟩ | ⟨w, -, hw, hmem⟩
  · exact .inl ⟨x, hbrk ▸ hx, fun hold => hfree (hfreed x hold), hnext x hxv⟩
  · obtain ⟨p, hp, rfl⟩ := List.mem_map.mp hmem
    obtain ⟨hl, hp⟩ := hwrites w hw p hp
    exact .inr ⟨w, List.mem_range.mpr (ho.running w hl).lt, hl, List.mem_map_of_mem hp⟩

/-- No block that was freed is named. -/
def FreedUnnamed (s : St) : Prop := ∀ v ∈ s.freed, ¬ Named s v

/-- A new record names no freed one. -/
theorem FreedUnnamed.push {value : ℕ} (h : FreedUnnamed s) (ho : Order s)
    (hp : Pushed s s' u t key value) (hu : u ∉ s'.freed) : FreedUnnamed s' := by
  intro v hv hnamed
  have hvu : v ≠ u := fun heq => hu (heq ▸ hv)
  have hv := (hp.freed v hvu).mp hv
  rcases hnamed with ⟨x, -, hfree, hxv⟩ | ⟨w, -, hw, hmem⟩
  · by_cases hxu : x = u
    · rw [hxu, hp.record_self] at hxv
      exact (ho.map_ok key v hxv).2 hv
    · rw [hp.record x hxu] at hxv
      exact h v hv (.inl ⟨x, List.mem_range.mpr (ho.next_lt x v hxv).1,
        fun hold => hfree ((hp.freed x hxu).mpr hold), hxv⟩)
  · obtain ⟨p, hpw, rfl⟩ := List.mem_map.mp hmem
    rw [hp.live] at hw
    rcases hp.mem_writes.mp hpw with hpw | ⟨-, rfl⟩
    · exact h _ hv (.inr ⟨w, List.mem_range.mpr (ho.running w hw).lt, hw, List.mem_map_of_mem hpw⟩)
    · exact hvu rfl

/-- A transaction that ends names none. -/
theorem Ends.freedUnnamed {w : Ver} (he : Ends s s' t w) (h : FreedUnnamed s) (ho : Order s) :
    FreedUnnamed s' := by
  intro v hv hnamed
  rw [he.freed] at hv
  refine h v hv (hnamed.before ho he.brk (fun x hx => he.freed ▸ hx)
    (fun x hx => he.next_eq x ▸ hx) fun x hx p hp => ?_)
  obtain ⟨hl, hne⟩ := (he.live_iff x).mp hx
  exact ⟨hl, he.txn x hne ▸ hp⟩

/-- The collection at a record, when it frees none behind it: a record that is merged is first in
its list and committed. -/
theorem FreedUnnamed.collect {newest : Val} (h : FreedUnnamed s) (ho : Order s)
    (hfit : ¬ Collects s u) (hcol : collect s key u newest = .ok s') : FreedUnnamed s' := by
  have hc := collect_collected hcol
  obtain ⟨hbrk, htxn, hlive, -⟩ := hc.rest
  have hback : ∀ v, Named s' v → Named s v := fun v hnamed =>
    hnamed.before ho hbrk hc.freed (fun x => hc.next_upd x v) fun w hw p hp =>
      ⟨hlive ▸ hw, htxn ▸ hp⟩
  rcases collect_cases hcol with rfl | ⟨n, -, hnext, hlt, htail⟩ | ⟨hmap, hver, rfl⟩
  · exact h
  · -- the record behind has no successor, so it is not freed
    have hdne : (s.record n).next = .dne := by
      by_contra hne
      exact hfit (by simp [Collects, hnext, hlt, hne])
    have hsame : s'.freed = s.freed := by
      rw [freeTail] at htail
      cases hread : s.read n with
      | error f =>
        rw [hread] at htail
        cases htail
      | ok update =>
        obtain ⟨-, rfl⟩ := read_eq_ok hread
        simp only [hread, hdne] at htail
        cases htail
        rfl
    exact fun v hv hnamed => h v (hsame ▸ hv) (hback v hnamed)
  · intro v hv hnamed
    rcases List.mem_cons.mp hv with rfl | hold
    · rcases hback v hnamed with ⟨x, -, hx, hxv⟩ | ⟨w, -, hw, hmem⟩
      · exact ho.linked x v key hx hxv hmap
      · obtain ⟨p, hp, rfl⟩ := List.mem_map.mp hmem
        rw [((ho.running w hw).writes p hp).2] at hver
        cases hver
    · exact h v hold (hback v hnamed)

/-- Nor does any call that frees nothing. -/
theorem FreedUnnamed.stepOn {e : Call × ℕ} (h : FreedUnnamed s) (ho : Order s) (hok : Keeps s e)
    (hstep : stepOn s e = some s') : FreedUnnamed s' := by
  obtain ⟨c, u⟩ := e
  rcases stepOn_cases hstep with ⟨t, key, value, rfl, ht, hu, rfl⟩ | ⟨hnot, hstep⟩
  · have hp := txnMapSet_pushed (ho.running t ht).state u key value
    exact h.push ho hp (hp.taken fun hmem => (ho.freed_lt _ hmem).false)
  have hcall := step_cases hstep
  cases c with
  | begin =>
    have hcall : txnBegin s = .ok s' := hcall
    unfold txnBegin at hcall
    split at hcall
    · cases hcall
    cases hcall
    refine fun v hv hnamed => h v hv (hnamed.before ho rfl (fun _ hx => hx) (fun _ hx => hx)
      fun w hw p hp => ?_)
    by_cases hwt : w = s.txns
    · subst hwt
      simp only [Function.update_self] at hp
      exact absurd hp List.not_mem_nil
    · simp only [Function.update_of_ne hwt] at hw hp
      exact ⟨hw, hp⟩
  | set t key value => exact absurd rfl (hnot t key value)
  | get t key =>
    obtain ⟨ht, r, hget⟩ := hcall
    rcases txnMapGet_cases (ho.ownersRun t) (ho.running t ht).state hget with
      rfl | ⟨u, hwalk, hcol⟩
    · exact h
    · have hfit : Fits s (.get t key) := hok
      rw [Fits, hwalk] at hfit
      exact h.collect ho hfit hcol
  | commit t =>
    obtain ⟨ht, state, hcommit⟩ := hcall
    obtain ⟨⟨-, -, he⟩ | ⟨-, he⟩, -⟩ := txnCommit_ok ho ht hcommit
    · exact he.freedUnnamed h ho
    · exact he.freedUnnamed h ho
  | abort t =>
    obtain ⟨ht, rfl⟩ := hcall
    exact (txnAbort_ends (ho.running t ht)).freedUnnamed h ho

/-- Where `txn_map_get` frees no record, `txn_map_set` is given no block that is named: a record
that was merged into the map was the first of its list. -/
theorem unnamed_of_keeps {es : List (Call × ℕ)} (hok : StepsMeet Txn.stepOn Keeps init es)
    (hrun : run Txn.stepOn init es = some s) : StepsMeet Txn.stepOn Unnamed init es := by
  have himp : ∀ s e s', Order s ∧ FreedUnnamed s → Keeps s e → Txn.stepOn s e = some s' →
      Unnamed s e := by
    rintro s ⟨c, u⟩ s' ⟨ho, hf⟩ - hstep
    rcases stepOn_cases hstep with ⟨t, key, value, rfl, -, rfl | hu, -⟩ | ⟨hnot, -⟩
    · exact ho.not_named_brk
    · exact hf u hu
    · cases c with
      | set t key value => exact absurd rfl (hnot t key value)
      | begin | get | commit | abort => trivial
  have hkeep : ∀ s e s', Order s ∧ FreedUnnamed s → Keeps s e → Txn.stepOn s e = some s' →
      Order s' ∧ FreedUnnamed s' := fun s e s' hs hok hstep =>
    ⟨order_stepOn hs.1 (himp s e s' hs hok hstep) hstep, hs.2.stepOn hs.1 hok hstep⟩
  exact hok.of_run hkeep himp ⟨init_order, fun v hv => absurd hv List.not_mem_nil⟩ hrun

end Keeps

/-- **Version lists stay ordered** in every run in which `txn_map_set` is given no block that
is still named.  After any sequence of such calls, by any number of transactions, for every
key: going down its list of update records (to a literal, the end or a freed record) the
version numbers of committed records never increase, and a transaction whose commit returns
`TXN_VALIDATED` has no committed record above one of its own. -/
theorem version_lists_ordered (es : List (Call × ℕ)) (s : St)
    (hok : StepsMeet stepOn Unnamed init es) (hrun : run stepOn init es = some s) (key : ℕ) :
    ∃ us, Visible s (s.map key) us ∧ Descending s.record us
      ∧ ∀ t s', s.live t = true → txnCommit s t = .ok (s', .validated) →
          Uppermost s.record t us := by
  have h : Order s := run_invariant (fun _ _ _ => order_stepOn) init_order hok hrun
  obtain ⟨us, hus, hl⟩ := h.lists key
  refine ⟨us, hus, hl.descending, fun t s' ht hcommit => ?_⟩
  obtain ⟨⟨-, hpass, -⟩ | ⟨habort, -⟩, -⟩ := txnCommit_ok h ht hcommit
  · exact hl.uppermost hus hpass
  · cases habort

/-- A record is merged into the map and its block used again; then two transactions push in one
order and commit in the other: the one whose record is below fails. -/
def crossingRun : List (Call × ℕ) :=
  [(.begin, 0), (.set 0 5 11, 0), (.commit 0, 0), (.begin, 0), (.get 1 5, 0), (.begin, 0),
    (.set 1 5 12, 0), (.set 2 5 13, 1), (.commit 2, 0)]

/-- A reader between two writers, and a block that is used again. -/
theorem version_lists_ordered_crossing :
    ∃ s, StepsMeet stepOn Unnamed init crossingRun ∧ run stepOn init crossingRun = some s
      ∧ s.map 5 = .upd 1
      ∧ (∃ us, Visible s (s.map 5) us ∧ Descending s.record us
        ∧ ∀ t s', s.live t = true → txnCommit s t = .ok (s', .validated) →
            Uppermost s.record t us)
      ∧ (txnCommit s 1).toOption.map Prod.snd = some .aborted := by
  have hok : StepsMeet stepOn Unnamed init crossingRun := by decide +kernel
  have h : (run stepOn init crossingRun).map
      (fun s => (s.map 5, (txnCommit s 1).toOption.map Prod.snd))
      = some (.upd 1, some .aborted) := by decide +kernel
  obtain ⟨s, hs, hr⟩ := Option.map_eq_some_iff.mp h
  simp only [Prod.mk.injEq] at hr
  exact ⟨s, hok, hs, hr.1, version_lists_ordered crossingRun s hok hs 5, hr.2⟩

/-- Three transactions commit key 5 one after the other; a fourth one reads it, so that the
record in the middle is freed, sets it in the block of that record, and commits. -/
def cycleRun : List (Call × ℕ) :=
  [(.begin, 0), (.set 0 5 11, 0), (.commit 0, 0), (.begin, 0), (.set 1 5 12, 1), (.commit 1, 0),
    (.begin, 0), (.set 2 5 13, 2), (.commit 2, 0), (.begin, 0), (.get 3 5, 0), (.set 3 5 14, 1),
    (.commit 3, 0)]

/-- The list of key 5 is a cycle: going down, the versions are 5, 4, 5, 4 and so on. -/
theorem reused_block_in_cycle :
    ∃ s, run stepOn init cycleRun = some s ∧ s.map 5 = .upd 1 ∧ s.freed = []
      ∧ s.record 1 = ⟨.num 5, 14, .upd 2⟩ ∧ s.record 2 = ⟨.num 4, 13, .upd 1⟩
      ∧ ¬ ∃ us, Visible s (s.map 5) us ∧ Descending s.record us := by
  have h : (run stepOn init cycleRun).map (fun s => (s.map 5, s.freed, s.record 1, s.record 2))
      = some (.upd 1, [], ⟨.num 5, 14, .upd 2⟩, ⟨.num 4, 13, .upd 1⟩) := by decide +kernel
  obtain ⟨s, hrun, hr⟩ := Option.map_eq_some_iff.mp h
  simp only [Prod.mk.injEq] at hr
  obtain ⟨hmap, hfreed, h1, h2⟩ := hr
  refine ⟨s, hrun, hmap, hfreed, h1, h2, ?_⟩
  rintro ⟨us, hus, -⟩
  have hcycle : ∀ val us, Visible s val us → val ≠ .upd 1 ∧ val ≠ .upd 2 := by
    intro val us hus
    induction hus with
    | dne | lit => exact ⟨Val.noConfusion, Val.noConfusion⟩
    | freed hu =>
      rw [hfreed] at hu
      exact absurd hu List.not_mem_nil
    | @cons u us _ _ ih =>
      refine ⟨fun heq => ?_, fun heq => ?_⟩
      · rw [Val.upd.inj heq, h1] at ih
        exact ih.2 rfl
      · rw [Val.upd.inj heq, h2] at ih
        exact ih.1 rfl
  exact (hcycle _ us hus).1 hmap

end Txn
