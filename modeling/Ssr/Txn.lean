/-
# Transactions over a map (`src/txn/txn.c`), one call at a time

Every call `txn_begin`, `txn_map_set`, `txn_map_get`, `txn_commit`, `txn_abort` is
one atomic step here.

* The map is a function from keys to the words it stores.  A word is
  `DOES_NOT_EXIST`, a literal, or (with `TAG2`) the address of an update record;
  literals are non-zero and below `2 ^ 62`, so `VAL_TO_PTR` is `NULL` on the first
  kind only.
* A version is a number, `ABORTED_VERSION`, or (with `TAG1`) the address of a
  transaction.  The tagged ones are above every version number.
* Records and transactions are addresses.  `freed` has the blocks of records that were
  given to `nbd_free` or `rcu_defer_free` and not taken again; reading one of them is a
  fault.  `txn_map_set` is given the block that `nbd_malloc` returns: `step` gives it one
  that was never used before, `stepOn` in the module on the order of the lists any that is
  not in use.  No link to a transaction is left when it has ended, so the address of a
  transaction is a new one.
* A call is made on a transaction that has neither committed nor aborted: both
  release it.  `txn_abort` leaves the count in `active_` as it is.
* `sets` and `commits` are history: what each transaction has set, newest first, and
  the transactions whose `txn_commit` returned `TXN_VALIDATED`, newest first.
-/
import Ssr.Active

open Map Active

namespace Txn

/-! ## Data -/

/-- A word stored in the map, or in `update->next`. -/
inductive Val where
  | dne
  | lit (v : ℕ)
  | upd (u : ℕ)
  deriving DecidableEq, Repr

/-- `version_t`. -/
inductive Ver where
  | num (n : ℕ)
  | aborted
  | owner (t : ℕ)
  deriving DecidableEq, Repr

/-- `v < n` on `version_t`, for a version number `n`. -/
def Ver.lt (v : Ver) (n : ℕ) : Bool :=
  match v with
  | .num m => m < n
  | .aborted | .owner _ => false

/-- `v <= n` on `version_t`, for a version number `n`. -/
def Ver.le (v : Ver) (n : ℕ) : Bool :=
  match v with
  | .num m => m ≤ n
  | .aborted | .owner _ => false

/-- `update_t`. -/
structure Update where
  version : Ver
  value : ℕ
  next : Val
  deriving DecidableEq, Repr

/-- `txn_state_e`. -/
inductive State where
  | running
  | validating
  | validated
  | aborted
  deriving DecidableEq, Repr

/-- `txn_t`; `writes` is in the order of the calls. -/
structure Transaction where
  rv : ℕ
  wv : ℕ
  writes : List (ℕ × ℕ)
  state : State
  deriving DecidableEq, Repr

/-- A transaction that has committed: its versions and what it has set. -/
structure Commit where
  txn : ℕ
  rv : ℕ
  wv : ℕ
  sets : List (ℕ × ℕ)
  deriving DecidableEq, Repr

/-- The state between two calls. -/
structure St where
  map : ℕ → Val
  record : ℕ → Update
  brk : ℕ
  freed : List ℕ
  txn : ℕ → Transaction
  live : ℕ → Bool
  txns : ℕ
  version : ℕ
  active : List (ℕ × ℕ)
  sets : ℕ → List (ℕ × ℕ)
  commits : List Commit

/-- What a call can fail with: a record that was freed is read, an assertion does not
hold, or a loop of the call does not end. -/
inductive Fault where
  | useAfterFree
  | assertion
  | diverges
  deriving DecidableEq, Repr

/-- `UNDETERMINED_VERSION`. -/
def undeterminedVersion : ℕ := 0

/-- `ERROR_TXN_NOT_RUNNING`, that is `-4` as a `map_val_t`. -/
def errorTxnNotRunning : ℕ := 2 ^ 64 - 4

/-- `map_cas` with the word that is expected: the word found, and the map left. -/
def mapCas (map : ℕ → Val) (key : ℕ) (expected new : Val) : Val × (ℕ → Val) :=
  (map key, if map key = expected then Function.update map key new else map)

namespace St

/-- Store into `txn->state`. -/
def setState (s : St) (t : ℕ) (state : State) : St :=
  { s with txn := Function.update s.txn t { s.txn t with state := state } }

/-- Store into `update->version`. -/
def setVersion (s : St) (u : ℕ) (v : Ver) : St :=
  { s with record := Function.update s.record u { s.record u with version := v } }

/-- Store into `update->next`. -/
def setNext (s : St) (u : ℕ) (v : Val) : St :=
  { s with record := Function.update s.record u { s.record u with next := v } }

/-- `txn_validate` takes a write version for a transaction that has none. -/
def acquireVersion (s : St) (t : ℕ) : St :=
  if (s.txn t).wv = undeterminedVersion then
    { s with
      version := s.version + 1
      txn := Function.update s.txn t { s.txn t with wv := s.version + 1 } }
  else s

/-- `nbd_malloc` can return block `u` for a record: it was never used, or it was freed. -/
def Unused (s : St) (u : ℕ) : Prop := u = s.brk ∨ u ∈ s.freed

instance (s : St) (u : ℕ) : Decidable (s.Unused u) := inferInstanceAs (Decidable (_ ∨ _))

/-- Block `u` is taken. -/
def take (s : St) (u : ℕ) : St :=
  if u = s.brk then { s with brk := s.brk + 1 } else { s with freed := s.freed.filter (· ≠ u) }

/-- A read of record `u`. -/
def read (s : St) (u : ℕ) : Except Fault Update :=
  if u ∈ s.freed then .error .useAfterFree else .ok (s.record u)

end St

/-! ## Validation -/

mutual

/-- `txn_validate`. -/
def txnValidate : ℕ → St → ℕ → Except Fault (St × State)
  | 0, _, _ => .error .diverges
  | fuel + 1, s, t =>
    match (s.txn t).state with
    | .running => .error .assertion
    | .validated => .ok (s, .validated)
    | .aborted => .ok (s, .aborted)
    | .validating =>
      let s₁ := s.acquireVersion t
      match validateWrites fuel s₁ t (s₁.txn t).writes with
      | .error f => .error f
      | .ok s₂ =>
        let s₃ := if (s₂.txn t).state = .validating then s₂.setState t .validated else s₂
        .ok (s₃, (s₃.txn t).state)

/-- The loop of `txn_validate` over the write set. -/
def validateWrites : ℕ → St → ℕ → List (ℕ × ℕ) → Except Fault St
  | 0, _, _, _ => .error .diverges
  | _ + 1, s, _, [] => .ok s
  | fuel + 1, s, t, (key, _) :: writes =>
    match validateKey fuel s t (s.map key) with
    | .error f => .error f
    | .ok (s', .aborted) => .ok (s'.setState t .aborted)
    | .ok (s', _) => validateWrites fuel s' t writes

/-- The loop of `validate_key`, from the word `val` on. -/
def validateKey : ℕ → St → ℕ → Val → Except Fault (St × State)
  | 0, _, _, _ => .error .diverges
  | _ + 1, s, _, .dne => .ok (s, .validated)
  | _ + 1, s, _, .lit _ => .ok (s, .validated)
  | fuel + 1, s, t, .upd u =>
    match s.read u with
    | .error f => .error f
    | .ok update =>
      match update.version with
      | .num n => .ok (s, if n ≤ (s.txn t).rv then .validated else .aborted)
      | .aborted => validateKey fuel s t update.next
      | .owner w =>
        if w = t then validateKey fuel s t update.next
        else
          match (s.txn w).state with
          | .running => validateKey fuel s t update.next
          | .aborted => validateKey fuel s t update.next
          | .validated =>
            .ok (s, if (s.txn w).wv ≤ (s.txn t).rv then .validated else .aborted)
          | .validating =>
            if (s.txn t).wv < (s.txn w).wv then validateKey fuel s t update.next
            else
              match txnValidate fuel s w with
              | .error f => .error f
              | .ok (s', .aborted) => validateKey fuel s' t update.next
              | .ok (s', _) =>
                .ok (s', if (s'.txn w).wv ≤ (s'.txn t).rv then .validated else .aborted)

end

/-! ## The counts in `active_` -/

/-- The loop of `txn_begin` that raises the count of `rv`. -/
def raiseCount (rv : ℕ) : ℕ → ℕ → List (ℕ × ℕ) → Except Fault (List (ℕ × ℕ))
  | 0, _, _ => .error .diverges
  | fuel + 1, old, l =>
    match slCas rv old (incr old) l with
    | none => .error .diverges
    | some (ret, l') =>
      if ret % 2 ^ 32 = old then .ok l' else raiseCount rv fuel (ret % 2 ^ 32) l'

/-- The loop of `txn_commit` that lowers the count of `rv`. -/
def lowerCount (rv version : ℕ) : ℕ → ℕ → List (ℕ × ℕ) → Except Fault (List (ℕ × ℕ))
  | 0, _, _ => .error .diverges
  | fuel + 1, old, l =>
    match slCas rv old (decr old) l with
    | none => .error .diverges
    | some (ret, l') =>
      let temp := ret % 2 ^ 32
      if temp = 1 ∧ rv ≠ version then .ok (slRemove rv l')
      else if old = temp then .ok l' else lowerCount rv version fuel temp l'

/-! ## The calls -/

/-- `txn_begin`: the address of the new transaction is `s.txns`.  No other call can
change `version_` in between, so the undo loop is not entered. -/
def txnBegin (s : St) : Except Fault St :=
  match raiseCount s.version 3 0 s.active with
  | .error f => .error f
  | .ok active =>
    .ok
      { s with
        txn := Function.update s.txn s.txns ⟨s.version, undeterminedVersion, [], .running⟩
        live := Function.update s.live s.txns true
        txns := s.txns + 1
        active := active }

/-- `txn_map_set`, where `nbd_malloc` returns block `u`.  The word just read is still there
when `map_cas` expects it. -/
def txnMapSet (s : St) (u t key value : ℕ) : St :=
  if (s.txn t).state ≠ .running then s
  else
    let old := s.map key
    { s.take u with
      record := Function.update s.record u ⟨.owner t, value, old⟩
      map := (mapCas s.map key old (.upd u)).2
      txn := Function.update s.txn t { s.txn t with writes := (s.txn t).writes ++ [(key, u)] }
      sets := Function.update s.sets t ((key, value) :: s.sets t) }

/-- `update->version = v` for every record of a write set. -/
def detach (s : St) (writes : List (ℕ × ℕ)) (v : Ver) : St :=
  writes.foldl (fun s w => s.setVersion w.2 v) s

/-- `txn_abort`. -/
def txnAbort (s : St) (t : ℕ) : St :=
  if (s.txn t).state ≠ .running then s
  else
    { detach s (s.txn t).writes .aborted with live := Function.update s.live t false }

/-- `txn_commit`. -/
def txnCommit (s : St) (t : ℕ) : Except Fault (St × State) :=
  if (s.txn t).state ≠ .running then .ok (s, (s.txn t).state)
  else
    match txnValidate (s.brk + (s.txn t).writes.length + 3) (s.setState t .validating) t with
    | .error f => .error f
    | .ok (s₁, state) =>
      let txn := s₁.txn t
      let s₂ := detach s₁ txn.writes (if txn.state = .aborted then .aborted else .num txn.wv)
      match lowerCount txn.rv s₂.version 4 2 s₂.active with
      | .error f => .error f
      | .ok active =>
        .ok
          ({ s₂ with
              active := active
              live := Function.update s₂.live t false
              commits :=
                if state = .validated then ⟨t, txn.rv, txn.wv, s₂.sets t⟩ :: s₂.commits
                else s₂.commits },
            state)

/-- The search loop of `txn_map_get`, from the word `val` on: the word it stops at.  A
validating writer is helped. -/
def getWalk : ℕ → St → ℕ → Val → Except Fault (St × Val)
  | 0, _, _, _ => .error .diverges
  | _ + 1, s, _, .dne => .ok (s, .dne)
  | _ + 1, s, _, .lit v => .ok (s, .lit v)
  | fuel + 1, s, t, .upd u =>
    match s.read u with
    | .error f => .error f
    | .ok update =>
      match update.version with
      | .num n => if n ≤ (s.txn t).rv then .ok (s, .upd u) else getWalk fuel s t update.next
      | .aborted => getWalk fuel s t update.next
      | .owner w =>
        if w = t then .ok (s, .upd u)
        else
          match (s.txn w).state with
          | .running => getWalk fuel s t update.next
          | .aborted => getWalk fuel s t update.next
          | .validated =>
            if (s.txn t).rv < (s.txn w).wv then getWalk fuel s t update.next
            else .ok (s, .upd u)
          | .validating =>
            if (s.txn t).rv < (s.txn w).wv then getWalk fuel s t update.next
            else
              match txnValidate fuel s w with
              | .error f => .error f
              | .ok (s', .aborted) => getWalk fuel s' t update.next
              | .ok (s', _) =>
                if (s'.txn t).rv < (s'.txn w).wv then getWalk fuel s' t update.next
                else .ok (s', .upd u)

/-- The loop of `txn_map_get` that frees `temp` and the records that follow it.  It
stops at a record that has no successor, which it does not free. -/
def freeTail : ℕ → St → ℕ → Except Fault St
  | 0, _, _ => .error .diverges
  | fuel + 1, s, temp =>
    match s.read temp with
    | .error f => .error f
    | .ok update =>
      let s' := s.setNext temp .dne
      match update.next with
      | .dne => .ok s'
      | .lit _ => .ok { s' with freed := temp :: s'.freed }
      | .upd n => freeTail fuel { s' with freed := temp :: s'.freed } n

/-- The garbage collection at the end of `txn_map_get`, at record `u` of `key`; `newest`
is the first word of the list.  The inner loop over aborted records is never
entered: it starts at a record whose version is below `min_active_version`. -/
def collect (s : St) (key u : ℕ) (newest : Val) : Except Fault St :=
  match s.read u with
  | .error f => .error f
  | .ok update =>
    match update.next with
    | .upd n =>
      match s.read n with
      | .error f => .error f
      | .ok next =>
        if next.version.lt (slMinKey s.active) then freeTail (s.brk + 1) s n else .ok s
    | _ =>
      if .upd u = newest ∧ update.version.le (slMinKey s.active) then
        let r := mapCas s.map key (.upd u) (.lit update.value)
        if r.1 = .upd u then .ok { s with map := r.2, freed := u :: s.freed }
        else .ok { s with map := r.2 }
      else .ok s

/-- `txn_map_get`. -/
def txnMapGet (s : St) (t key : ℕ) : Except Fault (St × ℕ) :=
  if (s.txn t).state ≠ .running then .ok (s, errorTxnNotRunning)
  else
    match getWalk (s.brk + 2) s t (s.map key) with
    | .error f => .error f
    | .ok (s', .dne) => .ok (s', doesNotExist)
    | .ok (s', .lit v) => .ok (s', v)
    | .ok (s', .upd u) =>
      match collect s' key u (s.map key) with
      | .error f => .error f
      | .ok s'' => .ok (s'', (s'.record u).value)

/-! ## Runs -/

/-- The calls. -/
inductive Call where
  | begin
  | set (t key value : ℕ)
  | get (t key : ℕ)
  | commit (t : ℕ)
  | abort (t : ℕ)
  deriving DecidableEq, Repr

/-- The state after a call on a live transaction, with a value that `txn_map_set` may
be given; `nbd_malloc` returns a block that was never used.  A call that faults has none. -/
def step (s : St) : Call → Option St
  | .begin => (txnBegin s).toOption
  | .set t key value =>
    if s.live t ∧ 0 < value ∧ value < 2 ^ 62 then some (txnMapSet s s.brk t key value) else none
  | .get t key => if s.live t then (txnMapGet s t key).toOption.map Prod.fst else none
  | .commit t => if s.live t then (txnCommit s t).toOption.map Prod.fst else none
  | .abort t => if s.live t then some (txnAbort s t) else none

/-- The empty map. -/
def init : St where
  map := fun _ => .dne
  record := fun _ => ⟨.aborted, 0, .dne⟩
  brk := 0
  freed := []
  txn := fun _ => ⟨0, 0, [], .aborted⟩
  live := fun _ => false
  txns := 0
  version := 1
  active := []
  sets := fun _ => []
  commits := []

/-! ## What a transaction should read -/

/-- The last value that a transaction has set for `key`. -/
def lastSet (key : ℕ) (sets : List (ℕ × ℕ)) : Option ℕ :=
  (sets.find? fun e => e.1 = key).map Prod.snd

/-- `r` is the value of `key` in the snapshot of transaction `t`: its own last value,
else the last value of the committed transaction with the greatest write version not
above its read version, else `DOES_NOT_EXIST`. -/
def Snapshot (s : St) (t key r : ℕ) : Prop :=
  lastSet key (s.sets t) = some r
    ∨ lastSet key (s.sets t) = none
      ∧ ((∃ c ∈ s.commits, lastSet key c.sets = some r ∧ c.wv ≤ (s.txn t).rv
            ∧ ∀ d ∈ s.commits, lastSet key d.sets ≠ none → d.wv ≤ (s.txn t).rv → d.wv ≤ c.wv)
        ∨ (∀ c ∈ s.commits, lastSet key c.sets ≠ none → (s.txn t).rv < c.wv)
          ∧ r = doesNotExist)

/-- The collection at record `u` frees a record: the next one is older than every
active version and is not the last of its list. -/
def Collects (s : St) (u : ℕ) : Prop :=
  match (s.record u).next with
  | .upd n => (s.record n).version.lt (slMinKey s.active) = true ∧ (s.record n).next ≠ .dne
  | _ => False

/-- The condition on one call: `txn_map_get` frees no record, and the counts that
`txn_begin` and `txn_commit` find in `active_` are ones that their loops adjust. -/
def Fits (s : St) : Call → Prop
  | .begin => Near s.version s.active ∧ ∀ n ∈ slFind s.version s.active, n + 1 < 2 ^ 32
  | .commit t => Near (s.txn t).rv s.active ∧ ∀ n ∈ slFind (s.txn t).rv s.active, n ≤ 2
  | .get t key =>
    match getWalk (s.brk + 2) s t (s.map key) with
    | .ok (_, .upd u) => ¬ Collects s u
    | _ => True
  | .set _ _ _ | .abort _ => True

instance (s : St) (u : ℕ) : Decidable (Collects s u) := by
  unfold Collects
  split <;> infer_instance

instance (s : St) (c : Call) : Decidable (Fits s c) := by
  unfold Fits
  split
  · infer_instance
  · infer_instance
  · split <;> infer_instance
  · infer_instance
  · infer_instance

end Txn
