/-
# The update lists of the transactions

The invariant of the update lists, over runs of atomic calls in which no
`txn_map_get` frees a record and the counts in `active_` are adjusted right
(`Fits`).  The list of a key is a path of records that ends in a literal or in
nothing; reading it at version `r` means to take the first committed record whose
version is at most `r`, else the literal.

* Read at the version of a running transaction, or at one that a transaction may
  still get, the list of a key gives what the commit history gives.
* A committed record in front of a record of a running transaction is newer than that
  transaction, so a transaction finds its own record first, and one that validates
  has nothing committed in front of its records.
* The first committed record of a list has the greatest version that was ever
  committed for the key; with no committed record in the list, no transaction that
  is running or to come is older than what was merged into the map.
-/
import Ssr.Txn
import Ssr.ActiveCounts

open Interleaving Map Active

namespace Txn

/-! ## Update lists -/

/-- The records from a word on, and the word after the last of them. -/
inductive Path (next : ℕ → Val) : Val → List ℕ → Val → Prop
  | dne : Path next .dne [] .dne
  | lit (v : ℕ) : Path next (.lit v) [] (.lit v)
  | cons {u : ℕ} {us : List ℕ} {e : Val} : Path next (next u) us e → Path next (.upd u) (u :: us) e

/-- The links of the list are as they were. -/
theorem Path.congr {next next' : ℕ → Val} {val : Val} {us : List ℕ} {e : Val}
    (h : Path next val us e) (heq : ∀ u ∈ us, next' u = next u) : Path next' val us e := by
  induction h with
  | dne => exact .dne
  | lit v => exact .lit v
  | cons h ih =>
    refine .cons ?_
    rw [heq _ List.mem_cons_self]
    exact ih fun u hu => heq u (List.mem_cons_of_mem _ hu)

section Reads

variable (record : ℕ → Update)

/-- The first committed version of a list. -/
def firstNum : List ℕ → Option ℕ
  | [] => none
  | u :: us =>
    match (record u).version with
    | .num n => some n
    | _ => firstNum us

/-- A list read at version `r`. -/
def committedRead (r : ℕ) (e : Val) : List ℕ → Option ℕ
  | [] =>
    match e with
    | .lit v => some v
    | _ => none
  | u :: us =>
    match (record u).version with
    | .num n => if n ≤ r then some (record u).value else committedRead r e us
    | _ => committedRead r e us

/-- The newest record of transaction `t` in a list. -/
def ownRead (t : ℕ) : List ℕ → Option ℕ
  | [] => none
  | u :: us => if (record u).version = .owner t then some (record u).value else ownRead t us

/-- Where the search of transaction `t` stops. -/
def found (rv t : ℕ) (e : Val) : List ℕ → Val
  | [] => e
  | u :: us =>
    match (record u).version with
    | .num n => if n ≤ rv then .upd u else found rv t e us
    | .owner w => if w = t then .upd u else found rv t e us
    | .aborted => found rv t e us

/-- The value of a word. -/
def wordValue : Val → Option ℕ
  | .dne => none
  | .lit v => some v
  | .upd u => some (record u).value

/-- What validation at read version `rv` makes of a list. -/
def verdict (rv : ℕ) (us : List ℕ) : State :=
  match firstNum record us with
  | some n => if n ≤ rv then .validated else .aborted
  | none => .validated

/-- Committed records in front of those of a running transaction are newer than it. -/
def NewerFirst (rv : ℕ → ℕ) (us : List ℕ) : Prop :=
  us.Pairwise fun v u => ∀ n w, (record v).version = .num n → (record u).version = .owner w → rv w < n

variable {record}

/-- The transaction has no record in the list. -/
theorem ownRead_eq_none {t : ℕ} {us : List ℕ} :
    ownRead record t us = none ↔ ∀ u ∈ us, (record u).version ≠ .owner t := by
  induction us with
  | nil => simp [ownRead]
  | cons u us ih =>
    simp only [ownRead, List.forall_mem_cons]
    split_ifs with h
    · simp [h]
    · rw [ih]
      simp [h]

/-- A record of `t` that follows a committed one makes that one newer than `t`. -/
theorem NewerFirst.head {rv : ℕ → ℕ} {u : ℕ} {us : List ℕ} (h : NewerFirst record rv (u :: us))
    {n t v : ℕ} (hu : (record u).version = .num n) (hown : ownRead record t us = some v) :
    rv t < n := by
  by_contra hle
  have hnone : ownRead record t us = none := by
    rw [ownRead_eq_none]
    intro w hw hv
    exact hle ((List.pairwise_cons.mp h).1 w hw n t hu hv)
  rw [hnone] at hown
  cases hown

/-- The search finds the transaction's own value first, else the committed one. -/
theorem wordValue_found {rv : ℕ → ℕ} {t : ℕ} {e : Val} {us : List ℕ}
    (h : NewerFirst record rv us) (he : ∀ u, e ≠ .upd u) :
    wordValue record (found record (rv t) t e us)
      = (ownRead record t us).or (committedRead record (rv t) e us) := by
  induction us with
  | nil =>
    cases e with
    | dne | lit => rfl
    | upd u => exact absurd rfl (he u)
  | cons u us ih =>
    have ih := ih (List.pairwise_cons.mp h).2
    simp only [found, ownRead, committedRead]
    cases hv : (record u).version with
    | num n =>
      simp only [reduceCtorEq, if_false]
      split_ifs with hn
      · -- an own record further down would make this one too new
        cases hown : ownRead record t us with
        | none => simp [wordValue]
        | some v => exact absurd (h.head hv hown) (by omega)
      · exact ih
    | aborted => simpa using ih
    | owner w =>
      by_cases hw : w = t
      · subst hw
        simp [wordValue]
      · simpa [hw] using ih

/-- The commit of `t`, on its own records: they become the newest committed ones. -/
theorem committedRead_commit {record' : ℕ → Update} {rv : ℕ → ℕ} {t wv r v : ℕ} {e : Val}
    {us : List ℕ} (h : NewerFirst record rv us) (hval : ∀ u, (record' u).value = (record u).value)
    (hver : ∀ u ∈ us, (record' u).version
      = if (record u).version = .owner t then .num wv else (record u).version)
    (hpass : verdict record (rv t) us = .validated) (hown : ownRead record t us = some v)
    (hr : wv ≤ r) :
    committedRead record' r e us = some v ∧ firstNum record' us = some wv := by
  induction us with
  | nil => cases hown
  | cons u us ih =>
    have hver' := hver u List.mem_cons_self
    simp only [ownRead] at hown
    by_cases hu : (record u).version = .owner t
    · rw [if_pos hu] at hown hver'
      simp only [committedRead, firstNum, hver', if_pos hr, hval]
      exact ⟨hown, trivial⟩
    · rw [if_neg hu] at hown hver'
      have hrest : verdict record (rv t) us = .validated → committedRead record' r e us = some v
          ∧ firstNum record' us = some wv := fun hp =>
        ih (List.pairwise_cons.mp h).2 (fun w hw => hver w (List.mem_cons_of_mem _ hw)) hp hown
      cases hv : (record u).version with
      | num n =>
        have hlt := h.head hv hown
        simp only [verdict, firstNum, hv] at hpass
        rw [if_neg (by omega)] at hpass
        cases hpass
      | aborted | owner w =>
        rw [hv] at hver'
        simp only [verdict, firstNum, hv] at hpass
        simp only [committedRead, firstNum, hver']
        exact hrest hpass

end Reads

/-! ## The loops over a list -/

section Loops

variable {s : St} {t : ℕ}

/-- A read of a record that is not freed. -/
theorem read_eq {u : ℕ} (h : u ∉ s.freed) : s.read u = .ok (s.record u) := by
  rw [St.read, if_neg h]

/-- The other transactions with a record in the list are running. -/
def OthersRun (s : St) (t : ℕ) (us : List ℕ) : Prop :=
  ∀ u ∈ us, ∀ w, (s.record u).version = .owner w → w ≠ t → (s.txn w).state = .running

/-- `validate_key` finds the newest version. -/
theorem validateKey_eq {val e : Val} {us : List ℕ} {fuel : ℕ}
    (hpath : Path (fun u => (s.record u).next) val us e) (hfree : ∀ u ∈ us, u ∉ s.freed)
    (hrun : OthersRun s t us) (hfuel : us.length < fuel) :
    validateKey fuel s t val = .ok (s, verdict s.record (s.txn t).rv us) := by
  induction hpath generalizing fuel with
  | dne | lit =>
    obtain ⟨f, rfl⟩ := Nat.exists_eq_succ_of_ne_zero hfuel.ne_bot
    rfl
  | @cons u us e _ ih =>
    obtain ⟨f, rfl⟩ := Nat.exists_eq_succ_of_ne_zero (Nat.ne_zero_of_lt hfuel)
    have hlen : us.length < f := by
      rw [List.length_cons] at hfuel
      omega
    have ih := ih (fun w hw => hfree w (List.mem_cons_of_mem _ hw))
      (fun w hw => hrun w (List.mem_cons_of_mem _ hw)) hlen
    rw [validateKey, read_eq (hfree u List.mem_cons_self)]
    simp only [verdict, firstNum] at ih ⊢
    cases hv : (s.record u).version with
    | num n => rfl
    | aborted => exact ih
    | owner w =>
      by_cases hw : w = t
      · simp only [if_pos hw]
        exact ih
      · simp only [if_neg hw, hrun u List.mem_cons_self w hv hw]
        exact ih

/-- The search of `txn_map_get` finds the record to read. -/
theorem getWalk_eq {val e : Val} {us : List ℕ} {fuel : ℕ}
    (hpath : Path (fun u => (s.record u).next) val us e) (hfree : ∀ u ∈ us, u ∉ s.freed)
    (hrun : OthersRun s t us) (hfuel : us.length < fuel) :
    getWalk fuel s t val = .ok (s, found s.record (s.txn t).rv t e us) := by
  induction hpath generalizing fuel with
  | dne | lit =>
    obtain ⟨f, rfl⟩ := Nat.exists_eq_succ_of_ne_zero hfuel.ne_bot
    rfl
  | @cons u us e _ ih =>
    obtain ⟨f, rfl⟩ := Nat.exists_eq_succ_of_ne_zero (Nat.ne_zero_of_lt hfuel)
    have hlen : us.length < f := by
      rw [List.length_cons] at hfuel
      omega
    have ih := ih (fun w hw => hfree w (List.mem_cons_of_mem _ hw))
      (fun w hw => hrun w (List.mem_cons_of_mem _ hw)) hlen
    rw [getWalk, read_eq (hfree u List.mem_cons_self)]
    simp only [found]
    cases hv : (s.record u).version with
    | num n =>
      simp only
      split_ifs
      · rfl
      · exact ih
    | aborted => exact ih
    | owner w =>
      by_cases hw : w = t
      · simp only [if_pos hw]
      · simp only [if_neg hw, hrun u List.mem_cons_self w hv hw]
        exact ih

/-- The write set passes when every key of it does; else the transaction is aborted. -/
theorem validateWrites_eq {us : ℕ → List ℕ} {e : ℕ → Val} {ws : List (ℕ × ℕ)} {fuel m : ℕ}
    (hpath : ∀ k, Path (fun u => (s.record u).next) (s.map k) (us k) (e k))
    (hfree : ∀ k, ∀ u ∈ us k, u ∉ s.freed) (hrun : ∀ k, OthersRun s t (us k))
    (hlen : ∀ k, (us k).length ≤ m) (hfuel : m + ws.length + 1 < fuel) :
    validateWrites fuel s t ws
      = .ok (if ∀ p ∈ ws, verdict s.record (s.txn t).rv (us p.1) = .validated then s
          else s.setState t .aborted) := by
  induction ws generalizing fuel with
  | nil =>
    obtain ⟨f, rfl⟩ := Nat.exists_eq_succ_of_ne_zero (Nat.ne_zero_of_lt hfuel)
    rw [validateWrites, if_pos (by simp)]
  | cons p ws ih =>
    obtain ⟨k, u⟩ := p
    obtain ⟨f, rfl⟩ := Nat.exists_eq_succ_of_ne_zero (Nat.ne_zero_of_lt hfuel)
    rw [List.length_cons] at hfuel
    have hk := hlen k
    rw [validateWrites, validateKey_eq (hpath k) (hfree k) (hrun k) (by omega)]
    have hv : verdict s.record (s.txn t).rv (us k) = .validated
        ∨ verdict s.record (s.txn t).rv (us k) = .aborted := by
      unfold verdict
      split
      · split_ifs
        · exact Or.inl rfl
        · exact Or.inr rfl
      · exact Or.inl rfl
    rcases hv with hv | hv
    · rw [hv]
      simp only
      rw [ih (by omega)]
      have hiff : (∀ p ∈ ws, verdict s.record (s.txn t).rv (us p.1) = .validated)
          ↔ ∀ p ∈ (k, u) :: ws, verdict s.record (s.txn t).rv (us p.1) = .validated := by
        rw [List.forall_mem_cons]
        exact ⟨fun h => ⟨hv, h⟩, And.right⟩
      exact congrArg _ (if_congr hiff rfl rfl)
    · have hnot : ¬ ∀ p ∈ (k, u) :: ws, verdict s.record (s.txn t).rv (us p.1) = .validated := by
        intro h
        have hcase := h _ List.mem_cons_self
        rw [hv] at hcase
        cases hcase
      rw [hv, if_neg hnot]

end Loops

/-! ## The invariant -/

/-- A version at which a transaction reads, or may come to read. -/
def Relevant (s : St) (r : ℕ) : Prop := (∃ t, s.live t = true ∧ (s.txn t).rv = r) ∨ s.version ≤ r

/-- The commit history read at version `r`. -/
def snapshotRead (commits : List Commit) (r key : ℕ) : Option ℕ :=
  commits.findSome? fun c => if c.wv ≤ r then lastSet key c.sets else none

/-- The list of one key. -/
structure KeyInv (s : St) (home : ℕ → ℕ) (key : ℕ) (us : List ℕ) (e : Val) : Prop where
  path : Path (fun u => (s.record u).next) (s.map key) us e
  desc : us.Pairwise fun v u => u < v
  alloc : ∀ u ∈ us, u < s.brk ∧ u ∉ s.freed ∧ home u = key
  owner : ∀ u ∈ us, ∀ w, (s.record u).version = .owner w →
    s.live w = true ∧ (key, u) ∈ (s.txn w).writes
  newer : NewerFirst s.record (fun w => (s.txn w).rv) us
  reads : ∀ r, Relevant s r → committedRead s.record r e us = snapshotRead s.commits r key
  own : ∀ t, s.live t = true → ownRead s.record t us = lastSet key (s.sets t)
  top : ∀ c ∈ s.commits, lastSet key c.sets ≠ none →
    match firstNum s.record us with
    | some n => c.wv ≤ n
    | none => ∀ r, Relevant s r → c.wv ≤ r

/-- `active_` has an entry for the read version of every running transaction, with a
count that is not too low. -/
structure Covers (s : St) : Prop where
  sorted : s.active.Pairwise fun a b => a.1 < b.1
  counts : Counts s.active
  entry : ∀ t, s.live t = true → ∃ n, ((s.txn t).rv, n) ∈ s.active
  bound : ∀ v n, (v, n) ∈ s.active → { t | s.live t = true ∧ (s.txn t).rv = v }.encard ≤ n

/-- What holds of a running transaction. -/
structure Running (s : St) (t : ℕ) : Prop where
  lt : t < s.txns
  state : (s.txn t).state = .running
  wv : (s.txn t).wv = undeterminedVersion
  rv_le : (s.txn t).rv ≤ s.version
  writes : ∀ p ∈ (s.txn t).writes, p.2 < s.brk ∧ (s.record p.2).version = .owner t

/-- The invariant.  `home` is the key to which a record belongs. -/
structure Inv (s : St) (home : ℕ → ℕ) : Prop where
  keys : ∀ key, ∃ us e, KeyInv s home key us e
  running : ∀ t, s.live t = true → Running s t
  fresh : ∀ t, s.txns ≤ t → s.live t = false ∧ s.sets t = []
  freed_lt : ∀ u ∈ s.freed, u < s.brk
  commits_le : ∀ c ∈ s.commits, c.wv ≤ s.version
  commits_sorted : s.commits.Pairwise fun c d => d.wv < c.wv
  commits_apart : s.commits.Pairwise fun c d =>
    ∀ key, lastSet key c.sets ≠ none → lastSet key d.sets ≠ none → d.wv ≤ c.rv
  covers : Covers s

/-- A list has no more records than there are. -/
theorem KeyInv.length_le {s : St} {home : ℕ → ℕ} {key : ℕ} {us : List ℕ} {e : Val}
    (h : KeyInv s home key us e) : us.length ≤ s.brk := by
  have hnodup : us.Nodup := h.desc.imp fun hlt => hlt.ne'
  have hsub : us ⊆ List.range s.brk := fun u hu => List.mem_range.mpr (h.alloc u hu).1
  simpa using (hnodup.subperm hsub).length_le

/-- The list ends at no record. -/
theorem Path.end_ne_upd {next : ℕ → Val} {val : Val} {us : List ℕ} {e : Val}
    (h : Path next val us e) (u : ℕ) : e ≠ .upd u := by
  induction h with
  | dne | lit => exact fun h => by cases h
  | cons _ ih => exact ih

/-- The other writers in the list are running. -/
theorem KeyInv.othersRun {s : St} {home : ℕ → ℕ} {key : ℕ} {us : List ℕ} {e : Val}
    (hi : Inv s home) (h : KeyInv s home key us e) (t : ℕ) : OthersRun s t us :=
  fun u hu w hw _ => (hi.running w (h.owner u hu w hw).1).state

/-! ## Records that change -/

section Congr

variable {record record' : ℕ → Update}

/-- Versions that are the same. -/
theorem firstNum_congr {us : List ℕ}
    (h : ∀ u ∈ us, ∀ n, (record' u).version = .num n ↔ (record u).version = .num n) :
    firstNum record' us = firstNum record us := by
  induction us with
  | nil => rfl
  | cons u us ih =>
    have hu := h u List.mem_cons_self
    have ih := ih fun w hw => h w (List.mem_cons_of_mem _ hw)
    simp only [firstNum]
    cases hv : (record u).version with
    | num n => rw [(hu n).mpr hv]
    | aborted | owner w =>
      cases hv' : (record' u).version with
      | num n =>
        rw [(hu n).mp hv'] at hv
        cases hv
      | aborted | owner w' => exact ih

/-- Reading at `r` sees only the committed records up to `r`. -/
theorem committedRead_congr {us : List ℕ} {r : ℕ} {e : Val}
    (h : ∀ u ∈ us, ∀ n, n ≤ r → ((record' u).version = .num n ↔ (record u).version = .num n))
    (hval : ∀ u ∈ us, (record' u).value = (record u).value) :
    committedRead record' r e us = committedRead record r e us := by
  induction us with
  | nil => rfl
  | cons u us ih =>
    have hu := h u List.mem_cons_self
    have ih := ih (fun w hw => h w (List.mem_cons_of_mem _ hw))
      (fun w hw => hval w (List.mem_cons_of_mem _ hw))
    have hskip : ∀ {rec : ℕ → Update}, (∀ n, (rec u).version = .num n → ¬ n ≤ r) →
        committedRead rec r e (u :: us) = committedRead rec r e us := by
      intro rec hno
      simp only [committedRead]
      cases hv : (rec u).version with
      | num n => exact if_neg (hno n hv)
      | aborted | owner w => rfl
    by_cases hn : ∃ n, n ≤ r ∧ (record u).version = .num n
    · obtain ⟨n, hle, hv⟩ := hn
      simp only [committedRead, hv, (hu n hle).mpr hv, if_pos hle, hval u List.mem_cons_self]
    · have hno : ∀ n, (record u).version = .num n → ¬ n ≤ r := fun n hv hle => hn ⟨n, hle, hv⟩
      have hno' : ∀ n, (record' u).version = .num n → ¬ n ≤ r := fun n hv hle =>
        hn ⟨n, hle, (hu n hle).mp hv⟩
      rw [hskip hno, hskip hno', ih]

/-- Writers and values that are the same. -/
theorem ownRead_congr {us : List ℕ} {t : ℕ}
    (h : ∀ u ∈ us, (record' u).version = .owner t ↔ (record u).version = .owner t)
    (hval : ∀ u ∈ us, (record' u).value = (record u).value) :
    ownRead record' t us = ownRead record t us := by
  induction us with
  | nil => rfl
  | cons u us ih =>
    have ih := ih (fun w hw => h w (List.mem_cons_of_mem _ hw))
      (fun w hw => hval w (List.mem_cons_of_mem _ hw))
    simp only [ownRead, h u List.mem_cons_self, hval u List.mem_cons_self, ih]

end Congr

section Detach

variable {s : St} {v : Ver}

/-- Writing the versions changes records only. -/
theorem detach_fields (ws : List (ℕ × ℕ)) :
    detach s ws v = { s with record := (detach s ws v).record } := by
  induction ws generalizing s with
  | nil => rfl
  | cons p ws ih =>
    show detach (s.setVersion p.2 v) ws v = _
    rw [ih]
    rfl

/-- Exactly the records of the write set get the version. -/
theorem detach_record (ws : List (ℕ × ℕ)) (u : ℕ) :
    (detach s ws v).record u
      = if u ∈ ws.map Prod.snd then { s.record u with version := v } else s.record u := by
  induction ws generalizing s with
  | nil => rfl
  | cons p ws ih =>
    have hcons : (detach s (p :: ws) v).record u = (detach (s.setVersion p.2 v) ws v).record u := rfl
    rw [hcons, ih, List.map_cons]
    by_cases hu : u = p.2
    · subst hu
      simp [St.setVersion]
    · have hrec : (s.setVersion p.2 v).record u = s.record u := by simp [St.setVersion, hu]
      rw [hrec]
      refine if_congr ⟨List.mem_cons_of_mem _, fun hm => ?_⟩ rfl rfl
      exact (List.mem_cons.mp hm).resolve_left hu

end Detach

/-! ## A list that stays as it is -/

section Steps

variable {s s' : St} {home home' : ℕ → ℕ} {key : ℕ} {us : List ℕ} {e : Val}

/-- A call that touches neither the records of a list nor the commit history. -/
theorem KeyInv.transport (h : KeyInv s home key us e) (hmap : s'.map key = s.map key)
    (hrec : ∀ u ∈ us, s'.record u = s.record u) (hbrk : s.brk ≤ s'.brk)
    (hfree : ∀ u ∈ us, u ∉ s'.freed) (hhome : ∀ u ∈ us, home' u = home u)
    (hlive : ∀ w, s.live w = true → s'.live w = true ∧ (s'.txn w).rv = (s.txn w).rv
      ∧ ∀ p ∈ (s.txn w).writes, p ∈ (s'.txn w).writes)
    (hrel : ∀ r, Relevant s' r → Relevant s r) (hcommits : s'.commits = s.commits)
    (hown : ∀ t, s'.live t = true →
      (s.live t = true ∧ lastSet key (s'.sets t) = lastSet key (s.sets t))
        ∨ (s.live t = false ∧ lastSet key (s'.sets t) = none)) :
    KeyInv s' home' key us e := by
  refine ⟨?_, h.desc, fun u hu => ?_, fun u hu w hw => ?_, ?_, fun r hr => ?_, fun t ht => ?_,
    fun c hc hk => ?_⟩
  · rw [hmap]
    exact h.path.congr fun u hu => by rw [hrec u hu]
  · obtain ⟨h₁, _, h₃⟩ := h.alloc u hu
    exact ⟨h₁.trans_le hbrk, hfree u hu, (hhome u hu).trans h₃⟩
  · rw [hrec u hu] at hw
    obtain ⟨hl, hm⟩ := h.owner u hu w hw
    obtain ⟨h₁, _, h₃⟩ := hlive w hl
    exact ⟨h₁, h₃ _ hm⟩
  · refine h.newer.imp_of_mem fun {v u} hv hu hvu n w hn hw => ?_
    rw [hrec v hv] at hn
    rw [hrec u hu] at hw
    show (s'.txn w).rv < n
    rw [(hlive w (h.owner u hu w hw).1).2.1]
    exact hvu n w hn hw
  · rw [hcommits, ← h.reads r (hrel r hr)]
    exact committedRead_congr (fun u hu n _ => by rw [hrec u hu]) fun u hu => by rw [hrec u hu]
  · have hsame : ownRead s'.record t us = ownRead s.record t us :=
      ownRead_congr (fun u hu => by rw [hrec u hu]) fun u hu => by rw [hrec u hu]
    rw [hsame]
    rcases hown t ht with ⟨hl, heq⟩ | ⟨hl, heq⟩
    · rw [heq]
      exact h.own t hl
    · rw [heq, ownRead_eq_none]
      intro u hu hv
      have hlt := (h.owner u hu t hv).1
      rw [hl] at hlt
      cases hlt
  · rw [hcommits] at hc
    have htop := h.top c hc hk
    rw [firstNum_congr fun u hu n => by rw [hrec u hu]]
    cases hf : firstNum s.record us with
    | some n =>
      rw [hf] at htop
      exact htop
    | none =>
      rw [hf] at htop
      exact fun r hr => htop r (hrel r hr)

/-! ## A record that is pushed -/

/-- What `txn_map_set` of transaction `t` does with the block `u`. -/
structure Pushed (s s' : St) (u t key value : ℕ) : Prop where
  record_self : s'.record u = ⟨.owner t, value, s.map key⟩
  record : ∀ v, v ≠ u → s'.record v = s.record v
  map_self : s'.map key = .upd u
  map : ∀ k, k ≠ key → s'.map k = s.map k
  txn_self : s'.txn t = { s.txn t with writes := (s.txn t).writes ++ [(key, u)] }
  txn : ∀ w, w ≠ t → s'.txn w = s.txn w
  sets_self : s'.sets t = (key, value) :: s.sets t
  sets : ∀ w, w ≠ t → s'.sets w = s.sets w
  brk : s'.brk = if u = s.brk then s.brk + 1 else s.brk
  freed : ∀ v, v ≠ u → (v ∈ s'.freed ↔ v ∈ s.freed)
  taken : s.brk ∉ s.freed → u ∉ s'.freed
  live : s'.live = s.live
  txns : s'.txns = s.txns
  version : s'.version = s.version
  active : s'.active = s.active
  commits : s'.commits = s.commits

/-- **`txn_map_set`** puts its record in front of the list, or stores into its own. -/
theorem txnMapSet_pushed {t : ℕ} (hrun : (s.txn t).state = .running) (u key value : ℕ) :
    Pushed s (txnMapSet s u t key value) u t key value := by
  rw [txnMapSet, if_neg (not_not.mpr hrun)]
  by_cases hu : u = s.brk
  · have htake : s.take u = { s with brk := s.brk + 1 } := if_pos hu
    rw [htake]
    refine ⟨Function.update_self .., fun v hv => Function.update_of_ne hv .., ?_, fun k hk => ?_,
      Function.update_self .., fun w hw => Function.update_of_ne hw .., Function.update_self ..,
      fun w hw => Function.update_of_ne hw .., (if_pos hu).symm, fun _ _ => Iff.rfl,
      fun hfree => hu ▸ hfree, rfl, rfl, rfl, rfl, rfl⟩
    · simp only [mapCas, if_true, Function.update_self]
    · simp only [mapCas, if_true, Function.update_of_ne hk]
  · have htake : s.take u = { s with freed := s.freed.filter (· ≠ u) } := if_neg hu
    rw [htake]
    refine ⟨Function.update_self .., fun v hv => Function.update_of_ne hv .., ?_, fun k hk => ?_,
      Function.update_self .., fun w hw => Function.update_of_ne hw .., Function.update_self ..,
      fun w hw => Function.update_of_ne hw .., (if_neg hu).symm, fun v hv => ?_, fun _ hmem => ?_,
      rfl, rfl, rfl, rfl, rfl⟩
    · simp only [mapCas, if_true, Function.update_self]
    · simp only [mapCas, if_true, Function.update_of_ne hk]
    · simp [hv]
    · simp at hmem

section Pushed

variable {u t value k w r : ℕ} (h : Pushed s s' u t key value)
include h

/-- The transactions are as they were, but for the write set of one. -/
theorem Pushed.txn_eq (w : ℕ) : (s'.txn w).rv = (s.txn w).rv ∧ (s'.txn w).state = (s.txn w).state
    ∧ (s'.txn w).wv = (s.txn w).wv := by
  by_cases hw : w = t
  · rw [hw, h.txn_self]
    exact ⟨rfl, rfl, rfl⟩
  · rw [h.txn w hw]
    exact ⟨rfl, rfl, rfl⟩

/-- The write sets afterwards. -/
theorem Pushed.mem_writes {p : ℕ × ℕ} :
    p ∈ (s'.txn w).writes ↔ p ∈ (s.txn w).writes ∨ w = t ∧ p = (key, u) := by
  by_cases hw : w = t
  · rw [hw, h.txn_self]
    simp
  · rw [h.txn w hw]
    simp [hw]

/-- What was asked about a version was asked before. -/
theorem Pushed.relevant (hr : Relevant s' r) : Relevant s r := by
  rcases hr with ⟨w, hw, rfl⟩ | hr
  · rw [h.live] at hw
    exact .inl ⟨w, hw, (h.txn_eq w).1.symm⟩
  · rw [h.version] at hr
    exact .inr hr

/-- What a transaction has set last. -/
theorem Pushed.lastSet_eq (k w : ℕ) : lastSet k (s'.sets w)
    = if w = t ∧ key = k then some value else lastSet k (s.sets w) := by
  by_cases hw : w = t
  · rw [hw, h.sets_self]
    by_cases hk : key = k <;> simp [lastSet, hk]
  · rw [h.sets w hw]
    simp [hw]

/-- The list of another key does not change. -/
theorem Pushed.keyInv_of_ne (hk : KeyInv s home k us e) (hkk : k ≠ key) (hu : u ∉ us)
    (hhome : ∀ v ∈ us, home' v = home v) (hbrk : s.brk ≤ s'.brk) :
    KeyInv s' home' k us e := by
  have hne : ∀ v ∈ us, v ≠ u := fun v hv heq => hu (heq ▸ hv)
  refine hk.transport (h.map k hkk) (fun v hv => h.record v (hne v hv)) hbrk (fun v hv hmem => ?_)
    hhome (fun w hw => ?_) (fun r => h.relevant) h.commits fun w hw => ?_
  · exact (hk.alloc v hv).2.1 ((h.freed v (hne v hv)).mp hmem)
  · exact ⟨h.live ▸ hw, (h.txn_eq w).1, fun p hp => h.mem_writes.mpr (.inl hp)⟩
  · rw [h.lastSet_eq, if_neg fun hwk => hkk hwk.2.symm]
    exact .inl ⟨h.live ▸ hw, rfl⟩

/-- The new record is on top of the list of its key, and its transaction's own. -/
theorem Pushed.keyInv_self (hk : KeyInv s home key us e) (ht : s.live t = true)
    (hlt : ∀ v ∈ us, v < u) (hu : u < s'.brk ∧ u ∉ s'.freed ∧ home' u = key)
    (hhome : ∀ v ∈ us, home' v = home v) (hbrk : s.brk ≤ s'.brk) :
    KeyInv s' home' key (u :: us) e := by
  have hrec : ∀ v ∈ us, s'.record v = s.record v := fun v hv => h.record v (hlt v hv).ne
  have hnum : ∀ v ∈ us, ∀ n, (s'.record v).version = .num n ↔ (s.record v).version = .num n :=
    fun v hv n => by rw [hrec v hv]
  have hvalue : ∀ v ∈ us, (s'.record v).value = (s.record v).value := fun v hv => by rw [hrec v hv]
  refine ⟨?_, List.pairwise_cons.mpr ⟨hlt, hk.desc⟩, List.forall_mem_cons.mpr ⟨hu, fun v hv => ?_⟩,
    List.forall_mem_cons.mpr ⟨fun w hw => ?_, fun v hv w hw => ?_⟩,
    List.pairwise_cons.mpr ⟨fun v _ n w hn => ?_, ?_⟩, fun r hr => ?_, fun w hw => ?_,
    fun c hc hl => ?_⟩
  · rw [h.map_self]
    refine .cons ?_
    rw [h.record_self]
    exact hk.path.congr fun v hv => by rw [hrec v hv]
  · obtain ⟨h₁, h₂, h₃⟩ := hk.alloc v hv
    exact ⟨h₁.trans_le hbrk, fun hmem => h₂ ((h.freed v (hlt v hv).ne).mp hmem),
      (hhome v hv).trans h₃⟩
  · rw [h.record_self] at hw
    cases hw
    exact ⟨h.live ▸ ht, h.mem_writes.mpr (.inr ⟨rfl, rfl⟩)⟩
  · rw [hrec v hv] at hw
    obtain ⟨h₁, h₂⟩ := hk.owner v hv w hw
    exact ⟨h.live ▸ h₁, h.mem_writes.mpr (.inl h₂)⟩
  · rw [h.record_self] at hn
    cases hn
  · refine hk.newer.imp_of_mem fun {v x} hv hx hvx n w hn hw => ?_
    rw [hrec v hv] at hn
    rw [hrec x hx] at hw
    show (s'.txn w).rv < n
    rw [(h.txn_eq w).1]
    exact hvx n w hn hw
  · rw [h.commits, ← hk.reads r (h.relevant hr)]
    simp only [committedRead, h.record_self]
    exact committedRead_congr (fun v hv n _ => hnum v hv n) hvalue
  · rw [h.live] at hw
    rw [h.lastSet_eq]
    simp only [ownRead, h.record_self]
    by_cases hwt : w = t
    · simp [hwt]
    · have hne : ¬ t = w := fun heq => hwt heq.symm
      simp only [hwt, false_and, if_false, Ver.owner.injEq, hne]
      rw [← hk.own w hw]
      exact ownRead_congr (fun v hv => by rw [hrec v hv]) hvalue
  · rw [h.commits] at hc
    have htop := hk.top c hc hl
    simp only [firstNum, h.record_self]
    rw [firstNum_congr hnum]
    cases hf : firstNum s.record us with
    | some n =>
      rw [hf] at htop
      exact htop
    | none =>
      rw [hf] at htop
      exact fun r hr => htop r (h.relevant hr)

/-- A running transaction goes on; the block was in no write set. -/
theorem Pushed.running (hr : Running s w) (hbrk : s.brk ≤ s'.brk) (hu : u < s'.brk)
    (hnot : ∀ p ∈ (s.txn w).writes, p.2 ≠ u) : Running s' w := by
  obtain ⟨hrv, hstate, hwv⟩ := h.txn_eq w
  refine ⟨h.txns ▸ hr.lt, hstate.trans hr.state, hwv.trans hr.wv, ?_, fun p hp => ?_⟩
  · rw [hrv, h.version]
    exact hr.rv_le
  · rcases h.mem_writes.mp hp with hp | ⟨rfl, rfl⟩
    · obtain ⟨hb, hv⟩ := hr.writes p hp
      rw [h.record p.2 (hnot p hp)]
      exact ⟨hb.trans_le hbrk, hv⟩
    · rw [h.record_self]
      exact ⟨hu, rfl⟩

end Pushed

/-! ## A transaction that ends -/

/-- What a list needs to know of the end of transaction `t`: its records get the
version `v`. -/
structure Ends (s s' : St) (t : ℕ) (v : Ver) : Prop where
  map : s'.map = s.map
  brk : s'.brk = s.brk
  freed : s'.freed = s.freed
  record : ∀ u, s'.record u
    = if u ∈ (s.txn t).writes.map Prod.snd then { s.record u with version := v } else s.record u
  live : s'.live = Function.update s.live t false
  txn : ∀ w, w ≠ t → s'.txn w = s.txn w
  sets : s'.sets = s.sets
  version : s.version ≤ s'.version

/-- The transaction that ends is no longer live. -/
theorem Ends.live_iff {t : ℕ} {v : Ver} (h : Ends s s' t v) (w : ℕ) :
    s'.live w = true ↔ s.live w = true ∧ w ≠ t := by
  rw [h.live]
  by_cases hw : w = t
  · subst hw
    simp
  · simp [hw]

/-- In a list, the records of the write set are the ones that `t` owns. -/
theorem Ends.version_eq {t : ℕ} {v : Ver} (h : Ends s s' t v) (hk : KeyInv s home key us e)
    (hrun : Running s t) {u : ℕ} (hu : u ∈ us) :
    (s'.record u).version = if (s.record u).version = .owner t then v else (s.record u).version := by
  rw [h.record u]
  by_cases hown : (s.record u).version = .owner t
  · have hmem := (hk.owner u hu t hown).2
    rw [if_pos (List.mem_map.mpr ⟨_, hmem, rfl⟩), if_pos hown]
  · have hnot : u ∉ (s.txn t).writes.map Prod.snd := by
      intro hmem
      obtain ⟨p, hp, rfl⟩ := List.mem_map.mp hmem
      exact hown (hrun.writes p hp).2
    rw [if_neg hnot, if_neg hown]

/-- The values are as they were. -/
theorem Ends.value_eq {t : ℕ} {v : Ver} (h : Ends s s' t v) (u : ℕ) :
    (s'.record u).value = (s.record u).value := by
  rw [h.record u]
  split_ifs <;> rfl

/-- So are the links. -/
theorem Ends.next_eq {t : ℕ} {v : Ver} (h : Ends s s' t v) (u : ℕ) :
    (s'.record u).next = (s.record u).next := by
  rw [h.record u]
  split_ifs <;> rfl

/-- What is asked about a version was asked before. -/
theorem Ends.relevant {t r : ℕ} {v : Ver} (h : Ends s s' t v) (hr : Relevant s' r) :
    Relevant s r := by
  rcases hr with ⟨w, hw, rfl⟩ | hr
  · obtain ⟨hl, hne⟩ := (h.live_iff w).mp hw
    exact Or.inl ⟨w, hl, by rw [h.txn w hne]⟩
  · exact Or.inr (h.version.trans hr)

/-- The part of a list's invariant that does not depend on the verdict. -/
theorem Ends.keyInv {t : ℕ} {v : Ver} (h : Ends s s' t v) (hk : KeyInv s home key us e)
    (hrun : Running s t) (hv : ∀ w, v ≠ .owner w)
    (hnew : ∀ n w, v = .num n → s.live w = true → (s.txn w).rv < n)
    (hreads : ∀ r, Relevant s' r → committedRead s'.record r e us = snapshotRead s'.commits r key)
    (htop : ∀ c ∈ s'.commits, lastSet key c.sets ≠ none →
      match firstNum s'.record us with
      | some n => c.wv ≤ n
      | none => ∀ r, Relevant s' r → c.wv ≤ r) : KeyInv s' home key us e := by
  have howner : ∀ u ∈ us, ∀ w, (s'.record u).version = .owner w →
      (s.record u).version = .owner w ∧ w ≠ t := by
    intro u hu w hw
    rw [h.version_eq hk hrun hu] at hw
    split_ifs at hw with hown
    · exact absurd hw (hv w)
    · refine ⟨hw, ?_⟩
      rintro rfl
      exact hown hw
  refine ⟨?_, hk.desc, fun u hu => ?_, fun u hu w hw => ?_, ?_, hreads, fun w hw => ?_, htop⟩
  · rw [h.map]
    exact hk.path.congr fun u _ => h.next_eq u
  · rw [h.brk, h.freed]
    exact hk.alloc u hu
  · obtain ⟨hw', hne⟩ := howner u hu w hw
    obtain ⟨hl, hm⟩ := hk.owner u hu w hw'
    rw [h.txn w hne]
    exact ⟨(h.live_iff w).mpr ⟨hl, hne⟩, hm⟩
  · refine hk.newer.imp_of_mem fun {x u} hx hu hxu n w hn hw => ?_
    obtain ⟨hw', hne⟩ := howner u hu w hw
    show (s'.txn w).rv < n
    rw [h.txn w hne]
    rw [h.version_eq hk hrun hx] at hn
    split_ifs at hn with hown
    · exact hnew n w hn (hk.owner u hu w hw').1
    · exact hxu n w hn hw'
  · obtain ⟨hl, hne⟩ := (h.live_iff w).mp hw
    rw [h.sets, ← hk.own w hl]
    refine ownRead_congr (fun u hu => ?_) fun u _ => h.value_eq u
    rw [h.version_eq hk hrun hu]
    split_ifs with hown
    · rw [hown]
      exact ⟨fun hw' => absurd hw' (hv w), fun hw' => absurd (Ver.owner.inj hw').symm hne⟩
    · exact Iff.rfl

/-- `txn_abort`, and a `txn_commit` that fails. -/
theorem Ends.keyInv_aborted {t : ℕ} (h : Ends s s' t .aborted) (hk : KeyInv s home key us e)
    (hrun : Running s t) (hcommits : s'.commits = s.commits) : KeyInv s' home key us e := by
  have hnum : ∀ u ∈ us, ∀ n, (s'.record u).version = .num n ↔ (s.record u).version = .num n := by
    intro u hu n
    rw [h.version_eq hk hrun hu]
    split_ifs with hown
    · rw [hown]
      simp
    · exact Iff.rfl
  refine h.keyInv hk hrun (fun w => by simp) (fun n w hn => by cases hn) (fun r hr => ?_) ?_
  · rw [hcommits, ← hk.reads r (h.relevant hr)]
    exact committedRead_congr (fun u hu n _ => hnum u hu n) fun u _ => h.value_eq u
  · intro c hc hl
    rw [hcommits] at hc
    have htop := hk.top c hc hl
    rw [firstNum_congr hnum]
    cases hf : firstNum s.record us with
    | some n =>
      rw [hf] at htop
      exact htop
    | none =>
      rw [hf] at htop
      exact fun r hr => htop r (h.relevant hr)

/-- A `txn_commit` that succeeds. -/
theorem Ends.keyInv_committed {t : ℕ} (h : Ends s s' t (.num (s.version + 1)))
    (hi : Inv s home) (hk : KeyInv s home key us e) (hlive : s.live t = true)
    (hversion : s'.version = s.version + 1)
    (hpass : lastSet key (s.sets t) ≠ none → verdict s.record (s.txn t).rv us = .validated)
    (hcommits : s'.commits = ⟨t, (s.txn t).rv, s.version + 1, s.sets t⟩ :: s.commits) :
    KeyInv s' home key us e := by
  have hrun := hi.running t hlive
  have hle : ∀ c ∈ s'.commits, c.wv ≤ s.version + 1 := by
    intro c hc
    rw [hcommits] at hc
    rcases List.mem_cons.mp hc with rfl | hc
    · exact le_rfl
    · exact (hi.commits_le c hc).trans (Nat.le_succ _)
  refine h.keyInv hk hrun (fun w => by simp)
    (fun n w hn hw => by cases hn; exact Nat.lt_succ_of_le (hi.running w hw).rv_le)
    (fun r hr => ?_) (fun c hc hl => ?_)
  · -- readers of now skip the new records, readers to come find them first
    rcases hown : lastSet key (s.sets t) with _ | v
    · have hnone : ownRead s.record t us = none := (hk.own t hlive).trans hown
      rw [hcommits, snapshotRead, List.findSome?_cons]
      simp only [hown, ite_self]
      refine (committedRead_congr (fun u hu n _ => ?_) fun u _ => h.value_eq u).trans
        (hk.reads r (h.relevant hr))
      rw [h.version_eq hk hrun hu, if_neg (ownRead_eq_none.mp hnone u hu)]
    · have hsome : ownRead s.record t us = some v := (hk.own t hlive).trans hown
      rcases hr with ⟨w, hw, rfl⟩ | hr
      · obtain ⟨hl, hne⟩ := (h.live_iff w).mp hw
        have hrv := (hi.running w hl).rv_le
        rw [hcommits, snapshotRead, List.findSome?_cons, h.txn w hne]
        rw [if_neg (by simp only; omega)]
        refine (committedRead_congr (fun u hu n hn => ?_) fun u _ => h.value_eq u).trans
          (hk.reads _ (Or.inl ⟨w, hl, rfl⟩))
        rw [h.version_eq hk hrun hu]
        split_ifs with how
        · rw [how]
          simp only [Ver.num.injEq, reduceCtorEq, iff_false]
          omega
        · exact Iff.rfl
      · rw [hversion] at hr
        rw [hcommits, snapshotRead, List.findSome?_cons, if_pos hr, hown]
        exact (committedRead_commit hk.newer h.value_eq (fun u hu => h.version_eq hk hrun hu)
          (hpass (by rw [hown]; simp)) hsome hr).1
  · rcases hown : lastSet key (s.sets t) with _ | v
    · have hnone : ownRead s.record t us = none := (hk.own t hlive).trans hown
      rw [hcommits] at hc
      rcases List.mem_cons.mp hc with rfl | hc
      · exact absurd hown hl
      · have htop := hk.top c hc hl
        have hfirst : firstNum s'.record us = firstNum s.record us := by
          refine firstNum_congr fun u hu n => ?_
          rw [h.version_eq hk hrun hu, if_neg (ownRead_eq_none.mp hnone u hu)]
        rw [hfirst]
        cases hf : firstNum s.record us with
        | some n =>
          rw [hf] at htop
          exact htop
        | none =>
          rw [hf] at htop
          exact fun r hr => htop r (h.relevant hr)
    · have hsome : ownRead s.record t us = some v := (hk.own t hlive).trans hown
      have hfirst := (committedRead_commit (e := e) hk.newer h.value_eq
        (fun u hu => h.version_eq hk hrun hu) (hpass (by rw [hown]; simp)) hsome le_rfl).2
      rw [hfirst]
      exact hle c hc

end Steps

/-! ## The counts -/

section Counting

variable {rv version n : ℕ} {l : List (ℕ × ℕ)}

/-- A count that is found has 32 bits and is not 0. -/
theorem Counts.of_slFind (hl : Counts l) (hf : slFind rv l = some n) : 0 < n ∧ n < 2 ^ 32 := by
  obtain ⟨e, he, rfl⟩ := slFind_mem hf
  exact hl e he

/-- The loop of `txn_begin` without interference. -/
theorem raiseCount_eq (hl : Counts l) (hlt : ∀ n ∈ slFind rv l, n + 1 < 2 ^ 32) :
    raiseCount rv 3 0 l = .ok (slPut rv ((slFind rv l).getD 0 + 1) l) := by
  cases hf : slFind rv l with
  | none => simp [raiseCount, slCas, hf, incr, expectDoesNotExist, doesNotExist]
  | some n =>
    obtain ⟨hpos, hn⟩ := Counts.of_slFind hl hf
    have hn1 : n + 1 < 2 ^ 32 := hlt n hf
    have hincr : incr n = n + 1 := Nat.mod_eq_of_lt hn1
    have hmod : n % 4294967296 = n := Nat.mod_eq_of_lt hn
    simp [raiseCount, slCas, hf, hincr, hmod, hpos.ne', expectDoesNotExist, doesNotExist]

/-- The loop of `txn_commit` without interference. -/
theorem lowerCount_eq (hl : Counts l) (hf : slFind rv l = some n) (hn : n ≤ 2)
    (hver : rv ≠ version) :
    lowerCount rv version 4 2 l = .ok (if n = 1 then slRemove rv l else slPut rv 1 l) := by
  obtain ⟨hpos, _⟩ := Counts.of_slFind hl hf
  obtain rfl | rfl : n = 1 ∨ n = 2 := by omega
  · have hput := slPut_of_slFind hf
    simp [lowerCount, slCas, hf, decr, expectDoesNotExist, doesNotExist, hver, hput]
  · simp [lowerCount, slCas, hf, decr, expectDoesNotExist, doesNotExist]

end Counting

section Covering

variable {s s' : St}

/-- The running transactions of a read version. -/
def liveAt (s : St) (v : ℕ) : Set ℕ := { t | s.live t = true ∧ (s.txn t).rv = v }

/-- Transactions that end without touching `active_`. -/
theorem Covers.shrink (h : Covers s) (hact : s'.active = s.active)
    (hlive : ∀ t, s'.live t = true → s.live t = true ∧ (s'.txn t).rv = (s.txn t).rv) :
    Covers s' := by
  refine ⟨hact ▸ h.sorted, hact ▸ h.counts, fun t ht => ?_, fun v n hm => ?_⟩
  · obtain ⟨hl, hrv⟩ := hlive t ht
    rw [hact, hrv]
    exact h.entry t hl
  · rw [hact] at hm
    refine (Set.encard_le_encard fun t ht => ?_).trans (h.bound v n hm)
    obtain ⟨hl, hrv⟩ := hlive t ht.1
    exact ⟨hl, hrv ▸ ht.2⟩

/-- `txn_begin` raises the count of the version it reads. -/
theorem Covers.begin (h : Covers s) {t : ℕ} (hfit : Fits s .begin) (ht : s.live t = false)
    (hact : s'.active = slPut s.version ((slFind s.version s.active).getD 0 + 1) s.active)
    (hlive : s'.live = Function.update s.live t true)
    (hrv : (s'.txn t).rv = s.version) (hother : ∀ w, w ≠ t → s'.txn w = s.txn w) :
    Covers s' := by
  obtain ⟨hnear, hlt⟩ := hfit
  have hmem : ∀ {k w}, (k, w) ∈ s'.active ↔
      (k = s.version ∧ w = (slFind s.version s.active).getD 0 + 1)
        ∨ (k ≠ s.version ∧ (k, w) ∈ s.active) := by
    rw [hact]
    exact mem_slPut_iff hnear h.sorted
  have hliveAt : ∀ w, s'.live w = true → w = t ∨ s.live w = true := by
    intro w hw
    by_cases hwt : w = t
    · exact Or.inl hwt
    · rw [hlive, Function.update_of_ne hwt] at hw
      exact Or.inr hw
  refine ⟨?_, ?_, fun w hw => ?_, fun v n hm => ?_⟩
  · rw [hact]
    exact slPut_sorted hnear h.sorted
  · rw [hact]
    intro e he
    rcases mem_slPut_imp he with heq | hm
    · rw [heq]
      refine ⟨Nat.succ_pos _, ?_⟩
      cases hf : slFind s.version s.active with
      | none => simp
      | some n => exact hlt n hf
    · exact h.counts e hm
  · by_cases hrw : (s'.txn w).rv = s.version
    · rw [hrw]
      exact ⟨_, hmem.mpr (Or.inl ⟨rfl, rfl⟩)⟩
    · have hwt : w ≠ t := by
        rintro rfl
        exact hrw hrv
      have hl := (hliveAt w hw).resolve_left hwt
      rw [hother w hwt] at hrw ⊢
      obtain ⟨n, hn⟩ := h.entry w hl
      exact ⟨n, hmem.mpr (Or.inr ⟨hrw, hn⟩)⟩
  · rcases hmem.mp hm with ⟨rfl, rfl⟩ | ⟨hne, hm⟩
    · -- at the version of the new transaction: one more than before
      have hsub : liveAt s' s.version ⊆ insert t (liveAt s s.version) := by
        rintro w ⟨hw, hwv⟩
        rcases hliveAt w hw with rfl | hl
        · exact Set.mem_insert _ _
        · by_cases hwt : w = t
          · subst hwt
            exact Set.mem_insert _ _
          · rw [hother w hwt] at hwv
            exact Set.mem_insert_of_mem _ ⟨hl, hwv⟩
      have hold : (liveAt s s.version).encard ≤ ((slFind s.version s.active).getD 0 : ℕ) := by
        cases hf : slFind s.version s.active with
        | some n => exact h.bound _ n (mem_of_slFind hnear hf)
        | none =>
          have hempty : liveAt s s.version = ∅ := by
            refine Set.eq_empty_of_forall_notMem fun w hw => ?_
            obtain ⟨n, hn⟩ := h.entry w hw.1
            rw [hw.2] at hn
            rw [slFind_of_mem hnear h.sorted hn] at hf
            cases hf
          rw [hempty, Set.encard_empty]
          exact zero_le
      refine (Set.encard_le_encard hsub).trans ((Set.encard_insert_le _ _).trans ?_)
      push_cast
      exact add_le_add_left hold 1
    · refine (Set.encard_le_encard fun w hw => ?_).trans (h.bound v n hm)
      have hwt : w ≠ t := by
        rintro rfl
        exact hne (hw.2.symm.trans hrv)
      have hl := (hliveAt w hw.1).resolve_left hwt
      have hwv := hw.2
      rw [hother w hwt] at hwv
      exact ⟨hl, hwv⟩

/-- `txn_commit` lowers the count of its read version, and removes the entry when it
was the last one. -/
theorem Covers.commit (h : Covers s) {t n : ℕ} (ht : s.live t = true)
    (hnear : Near (s.txn t).rv s.active)
    (hf : slFind (s.txn t).rv s.active = some n) (hn : n ≤ 2)
    (hact : s'.active = if n = 1 then slRemove (s.txn t).rv s.active
      else slPut (s.txn t).rv 1 s.active)
    (hlive : ∀ w, s'.live w = true ↔ s.live w = true ∧ w ≠ t)
    (hother : ∀ w, w ≠ t → s'.txn w = s.txn w) : Covers s' := by
  have hmemn := mem_of_slFind hnear hf
  have hbound := h.bound _ n hmemn
  have hmem : ∀ {k w}, k ≠ (s.txn t).rv → ((k, w) ∈ s'.active ↔ (k, w) ∈ s.active) := by
    intro k w hk
    rw [hact]
    split_ifs
    · rw [mem_slRemove_iff hnear h.sorted]
      exact ⟨And.right, fun hm => ⟨hk, hm⟩⟩
    · rw [mem_slPut_iff hnear h.sorted]
      exact ⟨fun hm => (hm.resolve_left fun hx => hk hx.1).2, fun hm => Or.inr ⟨hk, hm⟩⟩
  -- the other transactions at the same version
  have hrest : (liveAt s' (s.txn t).rv).encard + 1 ≤ n := by
    have hsub : liveAt s' (s.txn t).rv ⊆ liveAt s (s.txn t).rv \ {t} := by
      rintro w ⟨hw, hwv⟩
      obtain ⟨hl, hne⟩ := (hlive w).mp hw
      rw [hother w hne] at hwv
      exact ⟨⟨hl, hwv⟩, hne⟩
    have hadd := Set.encard_sdiff_singleton_add_one (show t ∈ liveAt s (s.txn t).rv from ⟨ht, rfl⟩)
    calc (liveAt s' (s.txn t).rv).encard + 1
        ≤ (liveAt s (s.txn t).rv \ {t}).encard + 1 := add_le_add_left (Set.encard_le_encard hsub) 1
      _ = (liveAt s (s.txn t).rv).encard := hadd
      _ ≤ n := hbound
  refine ⟨?_, ?_, fun w hw => ?_, fun v m hm => ?_⟩
  · rw [hact]
    split_ifs
    · exact h.sorted.sublist (slRemove_sublist _ _)
    · exact slPut_sorted hnear h.sorted
  · rw [hact]
    split_ifs
    · exact fun e he => h.counts e ((slRemove_sublist _ _).mem he)
    · intro e he
      rcases mem_slPut_imp he with heq | hm
      · rw [heq]
        decide
      · exact h.counts e hm
  · obtain ⟨hl, hne⟩ := (hlive w).mp hw
    by_cases hrw : (s'.txn w).rv = (s.txn t).rv
    · -- somebody is left, so the count was 2
      rw [hrw]
      have hn1 : n ≠ 1 := by
        rintro rfl
        have hzero : liveAt s' (s.txn t).rv = ∅ := by
          rw [← Set.encard_eq_zero]
          have hle : (liveAt s' (s.txn t).rv).encard + 1 ≤ 0 + 1 := by simpa using hrest
          exact le_antisymm ((ENat.add_le_add_iff_right (by simp)).mp hle) zero_le
        have hmw : w ∈ liveAt s' (s.txn t).rv := ⟨hw, hrw⟩
        rw [hzero] at hmw
        exact hmw
      rw [hact, if_neg hn1]
      exact ⟨1, (mem_slPut_iff hnear h.sorted).mpr (Or.inl ⟨rfl, rfl⟩)⟩
    · obtain ⟨m, hm⟩ := h.entry w hl
      rw [← hother w hne] at hm
      exact ⟨m, (hmem hrw).mpr hm⟩
  · by_cases hv : v = (s.txn t).rv
    · subst hv
      rw [hact] at hm
      split_ifs at hm with h1
      · exact absurd rfl ((mem_slRemove_iff hnear h.sorted).mp hm).1
      · have hm1 : m = 1 := by
          rcases (mem_slPut_iff hnear h.sorted).mp hm with hx | hx
          · exact hx.2
          · exact absurd rfl hx.1
        have hle : (liveAt s' (s.txn t).rv).encard + 1 ≤ 1 + 1 :=
          hrest.trans (by exact_mod_cast hn)
        rw [hm1]
        exact_mod_cast (ENat.add_le_add_iff_right (by simp)).mp hle
    · refine (Set.encard_le_encard fun w hw => ?_).trans (h.bound v m ((hmem hv).mp hm))
      obtain ⟨hl, hne⟩ := (hlive w).mp hw.1
      have hwv := hw.2
      rw [hother w hne] at hwv
      exact ⟨hl, hwv⟩

/-- `sl_min_key(active_)` is at most the read version of a running transaction. -/
theorem Covers.min_le (h : Covers s) {t : ℕ} (ht : s.live t = true) :
    slMinKey s.active ≤ (s.txn t).rv := by
  obtain ⟨n, hn⟩ := h.entry t ht
  have hs := h.sorted
  cases hl : s.active with
  | nil =>
    rw [hl] at hn
    exact absurd hn List.not_mem_nil
  | cons e l =>
    rw [hl] at hn hs
    rcases List.mem_cons.mp hn with heq | hm
    · rw [← heq]
      exact le_rfl
    · exact (List.rel_of_pairwise_cons hs hm).le

end Covering

end Txn
