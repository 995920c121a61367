/-
# Transactions over a map (`src/txn/txn.c`), one access at a time

The calls of `Ssr.Txn` as programs of atomic steps: every access to `txn->state`,
`txn->wv`, `version_` and `update->version`, every `map_get` and `map_cas`, and every
call on `active_` is one step.

* A transaction is a thread: it makes the calls on its own handle one after the other.
  While it validates it may help others, so a thread has a stack of suspended
  `txn_validate` callers.
* `update->version` is read anew for every test in the source, so a record may lose its
  owner between two tests of one iteration.  The thread then follows a pointer that is
  none: it takes no further step (`fault`).
* `txn_map_set` takes every value with clear tags, `DOES_NOT_EXIST` too.
* `active_` and the counting loops are those of `Ssr.Active`.
* Records are not used again; a record that was freed keeps its contents.
* `born`, `since`, `author`, `hist`, `merged`, `freed` and `verdicts` are history: the
  transactions that have begun, `version_` when a transaction set its state to
  `TXN_VALIDATING`, the transaction that made a record, the records pushed for a key
  (newest first), the records merged into the map, the records given to `nbd_free`, and
  the verdicts that were read.  No step reads them.
-/
import Ssr.Interleaving
import Ssr.Txn

open Interleaving Map Txn

namespace TxnSteps

/-! ## State -/

/-- The shared state. -/
structure Shared where
  counts : Active.Shared
  map : ℕ → Val
  record : ℕ → Update
  brk : ℕ
  rv : ℕ → ℕ
  wv : ℕ → ℕ
  writes : ℕ → List (ℕ × ℕ)
  state : ℕ → State
  born : List ℕ
  since : ℕ → ℕ
  author : ℕ → ℕ
  hist : ℕ → List ℕ
  merged : List ℕ
  freed : List ℕ
  verdicts : List (ℕ × State)

/-- A transaction that has its verdict. -/
def Shared.Decided (s : Shared) (x : ℕ) : Prop := s.state x = .validated ∨ s.state x = .aborted

instance (s : Shared) (x : ℕ) : Decidable (s.Decided x) :=
  inferInstanceAs (Decidable (_ ∨ _))

/-- Where a `txn_validate` of some transaction stands.  `i` is the index of the write, `u`
the update record that `validate_key` is at, `w` the transaction that made it. -/
inductive Stage where
  | switch
  | needVersion
  | add
  | setVersion (wv : ℕ)
  | mapGet (i : ℕ)
  | tag (i u : ℕ)
  | aborted (i u : ℕ)
  | writer (i u : ℕ)
  | writerState (i u w : ℕ)
  | writerVersion (i u w : ℕ)
  | compare (i u w : ℕ)
  | storeAborted
  | check
  | storeValidated
  | ret
  deriving DecidableEq, Repr

/-- A suspended caller of `txn_validate(w)`: `validate_key` of transaction `x`,
`txn_map_get` of the thread's own transaction, or its `txn_commit`. -/
inductive Frame where
  | key (x i u w : ℕ)
  | get (key u w : ℕ) (newest : Val)
  | commit
  deriving DecidableEq, Repr

/-- Where a transaction stands. -/
inductive Pc where
  | unborn
  | begin (p : Active.Pc)
  | ready
  | setGet (key value : ℕ)
  | setCas (key value u : ℕ) (old : Val)
  | commitState
  | validate (x : ℕ) (stack : List Frame) (q : Stage)
  | commitVerdict
  | commitVersion
  | detach (v : Ver) (writes : List (ℕ × ℕ))
  | count (p : Active.Pc)
  | abort (writes : List (ℕ × ℕ))
  | getMap (key : ℕ)
  | getTag (key u : ℕ) (newest : Val)
  | getAborted (key u : ℕ) (newest : Val)
  | getWriter (key u : ℕ) (newest : Val)
  | getState (key u w : ℕ) (newest : Val)
  | getVersion (key u w : ℕ) (newest : Val)
  | getCompare (key u w : ℕ) (newest : Val)
  | collectMin (u n : ℕ)
  | collectVersion (n min : ℕ)
  | collectFree (temp : ℕ)
  | mergeMin (key u : ℕ)
  | mergeVersion (key u min : ℕ)
  | mergeCas (key u : ℕ)
  | finished
  | fault
  deriving DecidableEq, Repr

/-- The input of a step: the start of a call, or the next step of the running one. -/
inductive Cmd where
  | begin
  | set (key value : ℕ)
  | get (key : ℕ)
  | commit
  | abort
  | resume
  deriving DecidableEq, Repr

/-! ## Stores -/

namespace Shared

/-- Store into `txn->state`. -/
def setState (s : Shared) (x : ℕ) (st : State) : Shared :=
  { s with state := Function.update s.state x st }

/-- `txn_commit` sets the state of its own transaction to `TXN_VALIDATING`. -/
def setValidating (s : Shared) (t : ℕ) : Shared :=
  { s.setState t .validating with since := Function.update s.since t s.counts.version }

/-- Store into `update->version`. -/
def setVersion (s : Shared) (u : ℕ) (v : Ver) : Shared :=
  { s with record := Function.update s.record u { s.record u with version := v } }

/-- Store into `update->next`. -/
def setNext (s : Shared) (u : ℕ) (v : Val) : Shared :=
  { s with record := Function.update s.record u { s.record u with next := v } }

/-- A verdict was read. -/
def consult (s : Shared) (x : ℕ) : Shared :=
  if s.Decided x then { s with verdicts := (x, s.state x) :: s.verdicts } else s

/-- `alloc_update_rec` by transaction `t`. -/
def alloc (s : Shared) (t value : ℕ) : Shared :=
  { s with
    record := Function.update s.record s.brk ⟨.owner t, value, .dne⟩
    author := Function.update s.author s.brk t
    brk := s.brk + 1 }

/-- The `map_cas` of `txn_map_set` succeeds; the record joins the write set. -/
def push (s : Shared) (t key u : ℕ) : Shared :=
  { s with
    map := Function.update s.map key (.upd u)
    hist := Function.update s.hist key (u :: s.hist key)
    writes := Function.update s.writes t (s.writes t ++ [(key, u)]) }

/-- The `map_cas` of `txn_map_get` succeeds. -/
def merge (s : Shared) (key u : ℕ) : Shared :=
  { s with
    map := Function.update s.map key (.lit (s.record u).value)
    merged := u :: s.merged }

/-- The key of the `i`-th write of transaction `x`. -/
def keyAt (s : Shared) (x i : ℕ) : ℕ := ((s.writes x).getD i (0, 0)).1

end Shared

/-! ## txn_validate -/

/-- The head of the loop over the write set. -/
def loopAt (s : Shared) (x i : ℕ) : Stage :=
  if i < (s.writes x).length then .mapGet i else .check

/-- The head of the loop of `validate_key`: at a word that is no record it returns
`TXN_VALIDATED`, and the next key follows. -/
def walkAt (s : Shared) (x i : ℕ) : Val → Stage
  | .upd u => .tag i u
  | .dne | .lit _ => loopAt s x (i + 1)

/-- What a step of `txn_validate` leads to. -/
inductive Next where
  | stay (q : Stage)
  | help (frame : Frame) (w : ℕ)
  | ret (r : State)
  | fault

/-- One step of `txn_validate(x)`. -/
def stageStep (s : Shared) (x : ℕ) : Stage → Shared × Next
  | .switch =>
    match s.state x with
    | .validating => (s, .stay .needVersion)
    | .validated | .aborted => (s.consult x, .stay .ret)
    | .running => (s, .fault)
  | .needVersion =>
    if s.wv x = undeterminedVersion then (s, .stay .add) else (s, .stay (loopAt s x 0))
  | .add =>
    ({ s with counts := { s.counts with version := s.counts.version + 1 } },
      .stay (.setVersion (s.counts.version + 1)))
  | .setVersion wv =>
    if s.wv x = undeterminedVersion then
      ({ s with wv := Function.update s.wv x wv }, .stay (loopAt s x 0))
    else (s, .stay (loopAt s x 0))
  -- validate_key
  | .mapGet i => (s, .stay (walkAt s x i (s.map (s.keyAt x i))))
  | .tag i u =>
    -- a version without tag is final, so that reading it again gives the same
    match (s.record u).version with
    | .num n => (s, .stay (if n ≤ s.rv x then loopAt s x (i + 1) else .storeAborted))
    | .aborted | .owner _ => (s, .stay (.aborted i u))
  | .aborted i u =>
    if (s.record u).version = .aborted then (s, .stay (walkAt s x i (s.record u).next))
    else (s, .stay (.writer i u))
  | .writer i u =>
    match (s.record u).version with
    | .owner w =>
      if w = x then (s, .stay (walkAt s x i (s.record u).next))
      else (s, .stay (.writerState i u w))
    | .num _ | .aborted => (s, .fault)
  | .writerState i u w =>
    match s.state w with
    | .running => (s, .stay (walkAt s x i (s.record u).next))
    | .validating => (s, .stay (.writerVersion i u w))
    | .aborted => (s.consult w, .stay (walkAt s x i (s.record u).next))
    | .validated => (s.consult w, .stay (.compare i u w))
  | .writerVersion i u w =>
    if s.wv x < s.wv w then (s, .stay (walkAt s x i (s.record u).next))
    else (s, .help (.key x i u w) w)
  | .compare i _ w =>
    (s, .stay (if s.wv w ≤ s.rv x then loopAt s x (i + 1) else .storeAborted))
  -- the end of txn_validate
  | .storeAborted => (s.setState x .aborted, .stay .check)
  | .check => if s.state x = .validating then (s, .stay .storeValidated) else (s, .stay .ret)
  | .storeValidated => (s.setState x .validated, .stay .ret)
  | .ret => (s.consult x, .ret (s.state x))

/-! ## The calls -/

/-- The head of the search loop of `txn_map_get`. -/
def getAt (key : ℕ) (newest : Val) : Val → Pc
  | .upd u => .getTag key u newest
  | .dne | .lit _ => .ready

/-- `txn_map_get` found record `u`: the first test of the collection. -/
def collectAt (s : Shared) (key u : ℕ) (newest : Val) : Pc :=
  match (s.record u).next with
  | .upd n => .collectMin u n
  | .dne | .lit _ => if .upd u = newest then .mergeMin key u else .ready

/-- `txn_validate` returned `r` to the topmost caller. -/
def returnTo (s : Shared) (r : State) : List Frame → Pc
  | [] => .fault
  | .key x i u w :: stack =>
    if r = .aborted then .validate x stack (walkAt s x i (s.record u).next)
    else .validate x stack (.compare i u w)
  | .get key u w newest :: _ =>
    if r = .aborted then getAt key newest (s.record u).next else .getCompare key u w newest
  | .commit :: _ => .commitVerdict

/-- One step of transaction `t`. -/
def step (t : ℕ) (s : Shared) : Pc → Cmd → Option (Shared × Pc)
  -- txn_begin
  | .unborn, .begin => some (s, .begin .beginVersion)
  | .begin p, .resume =>
    match Active.step t s.counts p .resume with
    | some (counts, .running rv) =>
      some ({ s with
              counts := counts
              rv := Function.update s.rv t rv
              born := t :: s.born }, .ready)
    | some (counts, p') => some ({ s with counts := counts }, .begin p')
    | none => none
  -- txn_map_set
  | .ready, .set key value =>
    if value < 2 ^ 62 then some (s, .setGet key value) else none
  | .setGet key value, .resume => some (s.alloc t value, .setCas key value s.brk (s.map key))
  | .setCas key value u old, .resume =>
    -- `update->next = old_update` is a store into a record that nobody else has
    if s.map key = old then some ((s.setNext u old).push t key u, .ready)
    else some (s.setNext u old, .setCas key value u (s.map key))
  -- txn_abort
  | .ready, .abort => some (s, .abort (s.writes t))
  | .abort ((_, u) :: ws), .resume => some (s.setVersion u .aborted, .abort ws)
  | .abort [], .resume => some (s, .finished)
  -- txn_commit
  | .ready, .commit => some (s, .commitState)
  | .commitState, .resume => some (s.setValidating t, .validate t [.commit] .switch)
  | .commitVerdict, .resume =>
    if s.state t = .aborted then some (s.consult t, .detach .aborted (s.writes t))
    else some (s.consult t, .commitVersion)
  | .commitVersion, .resume => some (s, .detach (.num (s.wv t)) (s.writes t))
  | .detach v ((_, u) :: ws), .resume => some (s.setVersion u v, .detach v ws)
  | .detach _ [], .resume => some (s, .count (.commitCas (s.rv t) 2))
  | .count p, .resume =>
    match Active.step t s.counts p .resume with
    | some (counts, .idle) => some ({ s with counts := counts }, .finished)
    | some (counts, p') => some ({ s with counts := counts }, .count p')
    | none => none
  -- txn_validate
  | .validate x stack q, .resume =>
    match stageStep s x q with
    | (s', .stay q') => some (s', .validate x stack q')
    | (s', .help frame w) => some (s', .validate w (frame :: stack) .switch)
    | (s', .ret r) => some (s', returnTo s' r stack)
    | (s', .fault) => some (s', .fault)
  -- txn_map_get
  | .ready, .get key => some (s, .getMap key)
  | .getMap key, .resume => some (s, getAt key (s.map key) (s.map key))
  | .getTag key u newest, .resume =>
    match (s.record u).version with
    | .num n =>
      if n ≤ s.rv t then some (s, collectAt s key u newest)
      else some (s, getAt key newest (s.record u).next)
    | .aborted | .owner _ => some (s, .getAborted key u newest)
  | .getAborted key u newest, .resume =>
    if (s.record u).version = .aborted then some (s, getAt key newest (s.record u).next)
    else some (s, .getWriter key u newest)
  | .getWriter key u newest, .resume =>
    match (s.record u).version with
    | .owner w =>
      if w = t then some (s, collectAt s key u newest) else some (s, .getState key u w newest)
    | .num _ | .aborted => some (s, .fault)
  | .getState key u w newest, .resume =>
    match s.state w with
    | .running => some (s, getAt key newest (s.record u).next)
    | .validating => some (s, .getVersion key u w newest)
    | .aborted => some (s.consult w, getAt key newest (s.record u).next)
    | .validated => some (s.consult w, .getCompare key u w newest)
  | .getVersion key u w newest, .resume =>
    if s.rv t < s.wv w then some (s, getAt key newest (s.record u).next)
    else some (s, .validate w [.get key u w newest] .switch)
  | .getCompare key u w newest, .resume =>
    if s.rv t < s.wv w then some (s, getAt key newest (s.record u).next)
    else some (s, collectAt s key u newest)
  -- the collection of txn_map_get
  | .collectMin _ n, .resume => some (s, .collectVersion n (Active.slMinKey s.counts.active))
  | .collectVersion n min, .resume =>
    if (s.record n).version.lt min then some (s, .collectFree n) else some (s, .ready)
  | .collectFree temp, .resume =>
    match (s.record temp).next with
    | .dne => some (s.setNext temp .dne, .ready)
    | .lit _ => some ({ s.setNext temp .dne with freed := temp :: s.freed }, .ready)
    | .upd n => some ({ s.setNext temp .dne with freed := temp :: s.freed }, .collectFree n)
  | .mergeMin key u, .resume => some (s, .mergeVersion key u (Active.slMinKey s.counts.active))
  | .mergeVersion key u min, .resume =>
    if (s.record u).version.le min then some (s, .mergeCas key u) else some (s, .ready)
  | .mergeCas key u, .resume =>
    -- an assertion of `ht_cas` stops the program at the new value `DOES_NOT_EXIST`
    if (s.record u).value = doesNotExist then some (s, .fault)
    else if s.map key = .upd u then some (s.merge key u, .ready) else some (s, .ready)
  | _, _ => none

/-- A thread whose transaction is over, or that has none, waits for a call. -/
@[simp] theorem step_ready_resume (t : ℕ) (s : Shared) : step t s .ready .resume = none := by
  simp only [step]

/-- The empty map; nobody has begun. -/
def init : Conf Shared Pc where
  shared :=
    { counts := ⟨1, []⟩, map := fun _ => .dne, record := fun _ => ⟨.aborted, 0, .dne⟩, brk := 0,
      rv := fun _ => 0, wv := fun _ => undeterminedVersion, writes := fun _ => [],
      state := fun _ => .running, born := [], since := fun _ => 0, author := fun _ => 0,
      hist := fun _ => [], merged := [], freed := [], verdicts := [] }
  thread := fun _ => .unborn

/-- The interleaved system. -/
abbrev sys : Conf Shared Pc → ℕ × Cmd → Option (Conf Shared Pc) :=
  interleave step

/-! ## When validation is right -/

/-- The condition on one step.  `validate_key` of a transaction compares its read version
only with versions below the transaction's own write version; a record is merged into
the map only when no undecided transaction has an older read version; no record is
freed. -/
def Fits (_t : ℕ) (s : Shared) (pc : Pc) (c : Cmd) : Prop :=
  match pc, c with
  | .validate x _ (.tag _ u), .resume =>
    match (s.record u).version with
    | .num n => n < s.wv x
    | .aborted | .owner _ => True
  | .validate x _ (.compare _ _ w), .resume => s.wv w < s.wv x
  | .mergeCas key u, .resume =>
    s.map key = .upd u → ∀ x ∈ s.born, ¬ s.Decided x → (s.record u).version.le (s.rv x) = true
  | .collectFree temp, .resume => (s.record temp).next = .dne
  | _, _ => True

instance (t : ℕ) (s : Shared) (pc : Pc) (c : Cmd) : Decidable (Fits t s pc c) := by
  unfold Fits
  split
  · split <;> infer_instance
  all_goals infer_instance

end TxnSteps
