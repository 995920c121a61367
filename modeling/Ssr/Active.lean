/-
# The active versions of the transactions (`src/txn/txn.c`, `src/map/skiplist.c`)

`active_` counts, for every read version, the transactions that run at it.  This
file has `txn_begin` and `txn_commit` as far as they touch `version_` and
`active_`: every access to `version_` and every `sl_cas` or `sl_remove` call is
one step.

* `active_` is the list of its unmarked nodes at the bottom level, each with its
  key and its value.  `find_preds` walks it and stops at the first node whose key
  is not below the one searched for, in the 32-bit comparison of the source.
* `sl_cas` is what `update_item` makes of it: an expectation other than
  `CAS_EXPECT_DOES_NOT_EXIST` is not compared with the value of the node found.
* A node whose value is `DOES_NOT_EXIST` makes `sl_cas` call itself again; run
  alone it never returns.
* `unsigned` counts are 32 bits wide, `version_` 64.
* A transaction is a thread of its own.  Without `txn_map_set` nobody but its
  owner validates it, so `txn_validate` is the increment of `version_`.
-/
import Ssr.Interleaving
import Ssr.Map

open Interleaving Map

namespace Active

/-! ## The skiplist, one call at a time -/

/-- The value of the node that `find_preds` finds for `key`. -/
def slFind (key : ℕ) : List (ℕ × ℕ) → Option ℕ
  | [] => none
  | (k, w) :: rest =>
    if keyDiff k key < 0 then slFind key rest
    else if keyDiff k key = 0 then some w else none

/-- Store `v` in the node for `key`, a new one where `find_preds` found none. -/
def slPut (key v : ℕ) : List (ℕ × ℕ) → List (ℕ × ℕ)
  | [] => [(key, v)]
  | (k, w) :: rest =>
    if keyDiff k key < 0 then (k, w) :: slPut key v rest
    else if keyDiff k key = 0 then (k, v) :: rest else (key, v) :: (k, w) :: rest

/-- `sl_remove`. -/
def slRemove (key : ℕ) : List (ℕ × ℕ) → List (ℕ × ℕ)
  | [] => []
  | (k, w) :: rest =>
    if keyDiff k key < 0 then (k, w) :: slRemove key rest
    else if keyDiff k key = 0 then rest else (k, w) :: rest

/-- `sl_min_key`. -/
def slMinKey : List (ℕ × ℕ) → ℕ
  | [] => doesNotExist
  | (k, _) :: _ => k

/-- `sl_cas`: the value it returns and the list it leaves; `none` when it does not
return. -/
def slCas (key expectation new : ℕ) (l : List (ℕ × ℕ)) : Option (ℕ × List (ℕ × ℕ)) :=
  match slFind key l with
  | some old =>
    if old = doesNotExist then none
    else if expectation = expectDoesNotExist then some (old, l)
    else some (old, slPut key new l)
  | none =>
    if expectation ≠ expectDoesNotExist ∧ expectation ≠ expectWhatever then
      some (doesNotExist, l)
    else some (doesNotExist, slPut key new l)

/-! ## The transactions -/

/-- `old_count + 1` on `unsigned`. -/
def incr (count : ℕ) : ℕ := (count + 1) % 2 ^ 32

/-- `old_count - 1` on `unsigned`. -/
def decr (count : ℕ) : ℕ := (count + (2 ^ 32 - 1)) % 2 ^ 32

/-- `version_` and `active_`. -/
structure Shared where
  version : ℕ
  active : List (ℕ × ℕ)
  deriving DecidableEq, Repr

/-- Where a transaction stands.  `old` is `old_count` of the loop it is in. -/
inductive Pc where
  | idle
  | beginVersion
  | beginCas (rv old : ℕ)
  | beginCheck (rv : ℕ)
  | undoCas (rv old : ℕ)
  | running (rv : ℕ)
  | commitAdd (rv : ℕ)
  | commitCas (rv old : ℕ)
  | commitVersion (rv old : ℕ)
  | commitRemove (rv : ℕ)
  deriving DecidableEq, Repr

/-- The input of a step: the start of a call, or the next step of the running one. -/
inductive Cmd where
  | begin
  | commit
  | resume
  deriving DecidableEq, Repr

/-- `temp = sl_cas(active_, rv, old, new)` followed by `next temp`; a call that does
not return is made again. -/
def countCas (s : Shared) (rv old new : ℕ) (again : Pc) (next : ℕ → Pc) : Shared × Pc :=
  match slCas rv old new s.active with
  | none => (s, again)
  | some (ret, l) => ({ s with active := l }, next (ret % 2 ^ 32))

/-- One step of transaction `t`. -/
def step (_t : ℕ) (s : Shared) : Pc → Cmd → Option (Shared × Pc)
  -- txn_begin
  | .idle, .begin => some (s, .beginVersion)
  | .beginVersion, .resume => some (s, .beginCas s.version 0)
  | .beginCas rv old, .resume =>
    some <| countCas s rv old (incr old) (.beginCas rv old) fun temp =>
      if temp = old then .beginCheck rv else .beginCas rv temp
  | .beginCheck rv, .resume =>
    if rv = s.version then some (s, .running rv) else some (s, .undoCas rv 1)
  | .undoCas rv old, .resume =>
    some <| countCas s rv old (decr old) (.undoCas rv old) fun temp =>
      if temp = old then .beginVersion else .undoCas rv temp
  -- txn_commit
  | .running rv, .commit => some (s, .commitAdd rv)
  | .commitAdd rv, .resume => some ({ s with version := (s.version + 1) % 2 ^ 64 }, .commitCas rv 2)
  | .commitCas rv old, .resume =>
    some <| countCas s rv old (decr old) (.commitCas rv old) fun temp =>
      if temp = 1 then .commitVersion rv old
      else if old = temp then .idle else .commitCas rv temp
  | .commitVersion rv old, .resume =>
    if rv ≠ s.version then some (s, .commitRemove rv)
    else if old = 1 then some (s, .idle) else some (s, .commitCas rv 1)
  | .commitRemove rv, .resume => some ({ s with active := slRemove rv s.active }, .idle)
  | _, _ => none

/-- An idle thread waits for a call. -/
@[simp] theorem step_idle_resume (t : ℕ) (s : Shared) : step t s .idle .resume = none := by
  simp only [step]

/-- `version_` is 1 and `active_` is empty. -/
def init : Conf Shared Pc where
  shared := ⟨1, []⟩
  thread := fun _ => .idle

/-- The interleaved system. -/
abbrev sys : Conf Shared Pc → ℕ × Cmd → Option (Conf Shared Pc) :=
  interleave step

/-! ## What the counts are for -/

/-- No `txn_begin` and no `txn_commit` is in progress. -/
def Quiescent (c : Conf Shared Pc) : Prop :=
  ∀ t, c.thread t = .idle ∨ ∃ rv, c.thread t = .running rv

/-- The transactions that run at read version `v`. -/
def inUse (c : Conf Shared Pc) (v : ℕ) : Set ℕ := { t | c.thread t = .running v }

/-- `active_` maps each version to the number of transactions that run at it, and
its least key is their least read version. -/
structure CountsMatch (c : Conf Shared Pc) : Prop where
  sorted : c.shared.active.Pairwise fun a b => a.1 < b.1
  entry_iff : ∀ v n, (v, n) ∈ c.shared.active ↔ n ≠ 0 ∧ (inUse c v).encard = n
  min_key : ∀ t v, c.thread t = .running v →
    IsLeast { w | ∃ u, c.thread u = .running w } (slMinKey c.shared.active)

/-! ## When the calls count right -/

/-- The keys of `active_` are compared with `key` by their difference. -/
def Near (key : ℕ) (l : List (ℕ × ℕ)) : Prop :=
  ∀ e ∈ l, e.1 < key + 2 ^ 31 ∧ key < e.1 + 2 ^ 31

/-- A call of `sl_cas` that stores a count, and that, where it finds a node and
expects a count, finds the count it expects or the one it stores. -/
def CasFits (key expectation new : ℕ) (l : List (ℕ × ℕ)) : Prop :=
  Near key l ∧ 0 < new
    ∧ (expectation ≠ expectDoesNotExist → ∀ v ∈ slFind key l, v = expectation ∨ v = new)

/-- The condition on one step. -/
def Fits (_t : ℕ) (s : Shared) (pc : Pc) (c : Cmd) : Prop :=
  match pc, c with
  | .beginCas rv old, .resume => CasFits rv old (incr old) s.active
  | .undoCas rv old, .resume | .commitCas rv old, .resume => CasFits rv old (decr old) s.active
  | .commitAdd _, .resume => s.version + 1 < 2 ^ 64
  | .commitRemove rv, .resume => Near rv s.active
  | _, _ => True

instance (key : ℕ) (l : List (ℕ × ℕ)) : Decidable (Near key l) :=
  inferInstanceAs (Decidable (∀ e ∈ l, _))

instance (key expectation new : ℕ) (l : List (ℕ × ℕ)) : Decidable (CasFits key expectation new l) :=
  inferInstanceAs (Decidable (_ ∧ _))

instance (t : ℕ) (s : Shared) (pc : Pc) (c : Cmd) : Decidable (Fits t s pc c) := by
  unfold Fits
  split <;> infer_instance

end Active
