/-
# The bounded stack `clifo` (`src/lifo/clifo.c`)

`clifo_push` and `clifo_pop` as programs of atomic steps: every load, store and
compare-and-swap is one step, and any number of threads take their steps in any
order (`Interleaving.interleave`).

* A call reserves a slot with its CAS on `head` and only then fills or drains the
  slot under the slot's lock, so that several calls may wait for one lock.
* The contents of the slots come from `malloc` and are arbitrary.
* A call is named by its thread and its number there.  Which push stored the value of a
  slot (`source`), who waits for a slot (`waitPush`, `waitPop`), the holder of its lock
  (`phase`), where every call stands (`place`), which pop read the value of which push
  (`reads`), the calls in the order of the steps that decide them (`log`, with what a
  stack would answer, and that `stack`), and the calls and returns (`events`) are
  history.  No step reads them.
-/
import Ssr.Interleaving
import Ssr.Linearizability

open Interleaving Linearizability

namespace Clifo

/-! ## The stack and its threads -/

/-- The state of a slot: `NST_EMPTY`, `NST_BUSY`, `NST_FULL`. -/
inductive Lock where
  | empty
  | busy
  | full
  deriving DecidableEq, Repr

/-- A call: its thread, and its number there. -/
abbrev Id := ℕ × ℕ

/-- The two calls. -/
inductive Op where
  | push (value : ℕ)
  | pop
  deriving DecidableEq, Repr

/-- What a call returns: `clifo_push` a status, `clifo_pop` a pointer (`NULL` is `0`). -/
inductive Ret where
  | push (status : ℤ)
  | pop (value : ℕ)
  deriving DecidableEq, Repr

/-- Where a call stands. -/
inductive Place where
  | idle
  | failed
  | pushWaits (i v : ℕ)
  | filling (i v : ℕ)
  | full (i v : ℕ)
  | taken (i v : ℕ)
  | read (v : ℕ)
  | popWaits (i : ℕ)
  | draining (i : ℕ)
  | drained (i : ℕ)
  | popped
  deriving DecidableEq, Repr

namespace Place

/-- The slot that the call, or its value, is at. -/
def slot : Place → Option ℕ
  | pushWaits i _ | filling i _ | full i _ | taken i _ => some i
  | popWaits i | draining i | drained i => some i
  | _ => none

/-- The value of a push that reserved a slot. -/
def pushed : Place → Option ℕ
  | pushWaits _ v | filling _ v | full _ v | taken _ v | read v => some v
  | _ => none

/-- A pop that reserved a slot. -/
def Pops : Place → Prop
  | popWaits _ | draining _ | drained _ | popped => True
  | _ => False

/-- The call has reserved a slot, and is not finished. -/
def Active : Place → Prop
  | pushWaits _ _ | filling _ _ | popWaits _ | draining _ | drained _ => True
  | _ => False

end Place

/-- What goes on in a slot: who holds its lock, and whose value is in it. -/
inductive Phase where
  | empty
  | filling (p : Id) (v : ℕ)
  | full (p : Id) (v : ℕ)
  | draining (q p : Id) (v : ℕ)
  | drained (q : Id)
  deriving DecidableEq, Repr

namespace Phase

/-- The lock of the slot. -/
def lock : Phase → Lock
  | empty => .empty
  | filling _ _ | draining _ _ _ | drained _ => .busy
  | full _ _ => .full

/-- A popper takes the lock. -/
def drain (q : Id) : Phase → Phase
  | full p v => draining q p v
  | x => x

/-- The value that no popper has taken hold of. -/
def held : Phase → List ℕ
  | filling _ v | full _ v => [v]
  | _ => []

/-- The calls at slot `i` that do not wait for its lock. -/
def places (i : ℕ) : Phase → List (Id × Place)
  | empty => []
  | filling p v => [(p, .filling i v)]
  | full p v => [(p, .full i v)]
  | draining q p v => [(q, .draining i), (p, .taken i v)]
  | drained q => [(q, .drained i)]

end Phase

/-- `clifo_s`, with the history. -/
structure Lifo where
  head : ℕ
  bound : ℕ
  value : ℕ → ℕ
  lock : ℕ → Lock
  source : ℕ → Id
  calls : ℕ → ℕ
  waitPush : ℕ → List (Id × ℕ)
  waitPop : ℕ → List (Id × ℕ)
  phase : ℕ → Phase
  place : Id → Place
  reads : List (Id × Id)
  stack : List ℕ
  log : List (Id × Op × Ret)
  events : List (Event Id Op Ret)

/-- Where a thread stands, with the locals that are live there.  `returned` is a
thread outside of any call. -/
inductive Pc where
  | returned
  | pushHead (c : Id) (value : ℕ)
  | pushCas (c : Id) (value head : ℕ)
  | pushLock (c : Id) (value head : ℕ)
  | pushStore (c : Id) (value head : ℕ)
  | pushUnlock (c : Id) (value head : ℕ)
  | popHead (c : Id)
  | popCas (c : Id) (head : ℕ)
  | popLock (c : Id) (next : ℕ)
  | popValue (c : Id) (next : ℕ)
  | popUnlock (c : Id) (next value : ℕ)
  deriving DecidableEq, Repr

/-- The input of a step: the start of a call, or the next step of the running one. -/
inductive Cmd where
  | call (op : Op)
  | resume
  deriving DecidableEq, Repr

/-- `clifo_alloc`; `junk` is what `malloc` left in the slots. -/
def alloc (size : ℕ) (junk : ℕ → ℕ) : Lifo where
  head := 0
  bound := size
  value := junk
  lock := fun _ => .empty
  source := fun _ => (0, 0)
  calls := fun _ => 0
  waitPush := fun _ => []
  waitPop := fun _ => []
  phase := fun _ => .empty
  place := fun _ => .idle
  reads := []
  stack := []
  log := []
  events := []

namespace Lifo

/-- History: a call stands at a new place. -/
def move (s : Lifo) (c : Id) (x : Place) : Lifo := { s with place := Function.update s.place c x }

/-- History: a call starts. -/
def enter (s : Lifo) (t : ℕ) (op : Op) : Lifo :=
  { s with
    calls := Function.update s.calls t (s.calls t + 1)
    events := s.events ++ [.call (t, s.calls t) op] }

/-- History: a call returns. -/
def leave (s : Lifo) (c : Id) (r : Ret) : Lifo := { s with events := s.events ++ [.ret c r] }

/-- History: a call is decided. -/
def decided (s : Lifo) (c : Id) (op : Op) (r : Ret) : Lifo := { s with log := s.log ++ [(c, op, r)] }

/-- A call finds the stack full or empty. -/
def fail (s : Lifo) (c : Id) (op : Op) (r : Ret) : Lifo :=
  ((s.decided c op r).move c .failed).leave c r

/-- The CAS on `head` of `clifo_push`. -/
def reservePush (s : Lifo) (c : Id) (v : ℕ) : Lifo :=
  { (s.decided c (.push v) (.push 0)).move c (.pushWaits s.head v) with
    head := s.head + 1
    waitPush := Function.update s.waitPush s.head (s.waitPush s.head ++ [(c, v)])
    stack := s.stack ++ [v] }

/-- The CAS on `head` of `clifo_pop`. -/
def reservePop (s : Lifo) (c : Id) : Lifo :=
  { (s.decided c .pop (.pop (s.stack.getLast?.getD 0))).move c (.popWaits (s.head - 1)) with
    head := s.head - 1
    waitPop := Function.update s.waitPop (s.head - 1)
      (s.waitPop (s.head - 1) ++ [(c, s.stack.getLast?.getD 0)])
    stack := s.stack.dropLast }

/-- `NST_PUSH_LOCK` of slot `i` succeeds. -/
def lockPush (s : Lifo) (c : Id) (v i : ℕ) : Lifo :=
  { s.move c (.filling i v) with
    lock := Function.update s.lock i .busy
    waitPush := Function.update s.waitPush i ((s.waitPush i).filter fun w => w.1 ≠ c)
    phase := Function.update s.phase i (.filling c v) }

/-- The value of slot `i` is stored. -/
def store (s : Lifo) (c : Id) (v i : ℕ) : Lifo :=
  { s with
    value := Function.update s.value i v
    source := Function.update s.source i c }

/-- `NST_PUSH_UNLOCK` of slot `i`. -/
def unlockPush (s : Lifo) (c : Id) (v i : ℕ) : Lifo :=
  { s.move c (.full i v) with
    lock := Function.update s.lock i .full
    phase := Function.update s.phase i (.full c v) }

/-- History: the value of slot `i` is taken hold of. -/
def take (s : Lifo) (i : ℕ) : Lifo :=
  match s.phase i with
  | .full p v => s.move p (.taken i v)
  | _ => s

/-- `NST_POP_LOCK` of slot `i` succeeds. -/
def lockPop (s : Lifo) (c : Id) (i : ℕ) : Lifo :=
  { (s.take i).move c (.draining i) with
    lock := Function.update s.lock i .busy
    waitPop := Function.update s.waitPop i ((s.waitPop i).filter fun w => w.1 ≠ c)
    phase := Function.update s.phase i ((s.phase i).drain c) }

/-- The value of slot `i` is loaded. -/
def load (s : Lifo) (c : Id) (i : ℕ) : Lifo :=
  { (s.move (s.source i) (.read (s.value i))).move c (.drained i) with
    phase := Function.update s.phase i (.drained c)
    reads := s.reads ++ [(c, s.source i)] }

/-- `NST_POP_UNLOCK` of slot `i`. -/
def unlockPop (s : Lifo) (c : Id) (i : ℕ) : Lifo :=
  { s.move c .popped with
    lock := Function.update s.lock i .empty
    phase := Function.update s.phase i .empty }

/-- The calls at slot `i`. -/
def listing (s : Lifo) (i : ℕ) : List (Id × Place) :=
  (s.waitPush i).map (fun w => (w.1, .pushWaits i w.2))
    ++ (s.waitPop i).map (fun w => (w.1, .popWaits i)) ++ (s.phase i).places i

end Lifo

/-- One atomic step of thread `t` in `clifo_push` or `clifo_pop`. -/
def step (t : ℕ) (s : Lifo) : Pc → Cmd → Option (Lifo × Pc)
  | .returned, .call (.push v) => some (s.enter t (.push v), .pushHead (t, s.calls t) v)
  | .returned, .call .pop => some (s.enter t .pop, .popHead (t, s.calls t))
  -- clifo_push
  | .pushHead c v, .resume =>
    if s.head = s.bound - 1 then
      some (s.fail c (.push v) (.push (-1)), .returned)
    else some (s, .pushCas c v s.head)
  | .pushCas c v head, .resume =>
    if s.head = head then some (s.reservePush c v, .pushLock c v head)
    else some (s, .pushHead c v)
  | .pushLock c v i, .resume =>
    if s.lock i = .empty then some (s.lockPush c v i, .pushStore c v i)
    else some (s, .pushLock c v i)
  | .pushStore c v i, .resume => some (s.store c v i, .pushUnlock c v i)
  | .pushUnlock c v i, .resume =>
    some ((s.unlockPush c v i).leave c (.push 0), .returned)
  -- clifo_pop
  | .popHead c, .resume =>
    if s.head = 0 then some (s.fail c .pop (.pop 0), .returned)
    else some (s, .popCas c s.head)
  | .popCas c head, .resume =>
    if s.head = head then some (s.reservePop c, .popLock c (head - 1))
    else some (s, .popHead c)
  | .popLock c i, .resume =>
    if s.lock i = .full then some (s.lockPop c i, .popValue c i)
    else some (s, .popLock c i)
  | .popValue c i, .resume => some (s.load c i, .popUnlock c i (s.value i))
  | .popUnlock c i v, .resume => some ((s.unlockPop c i).leave c (.pop v), .returned)
  | _, _ => none

/-- A thread that has returned waits for a call. -/
@[simp] theorem step_returned_resume (t : ℕ) (s : Lifo) : step t s .returned .resume = none := by
  simp only [step]

/-- A fresh stack, no thread inside a call. -/
def init (size : ℕ) (junk : ℕ → ℕ) : Conf Lifo Pc where
  shared := alloc size junk
  thread := fun _ => .returned

/-- The interleaved system. -/
abbrev sys : Conf Lifo Pc → ℕ × Cmd → Option (Conf Lifo Pc) := interleave step

/-! ## What the stack is for -/

/-- The call of a thread, and where it stands. -/
def Pc.place : Pc → Option (Id × Place)
  | .returned => none
  | .pushHead c _ | .pushCas c _ _ | .popHead c | .popCas c _ => some (c, .idle)
  | .pushLock c v i => some (c, .pushWaits i v)
  | .pushStore c v i | .pushUnlock c v i => some (c, .filling i v)
  | .popLock c i => some (c, .popWaits i)
  | .popValue c i => some (c, .draining i)
  | .popUnlock c i _ => some (c, .drained i)

/-- The slot that a thread uses. -/
def Pc.slot (pc : Pc) : Option ℕ := pc.place.bind fun x => x.2.slot

/-- A thread waits for the lock of its slot. -/
def Pc.Waits : Pc → Prop
  | .pushLock _ _ _ | .popLock _ _ => True
  | _ => False

/-- A push of `v` whose CAS on `head` succeeded. -/
def Lifo.Pushed (s : Lifo) (p : Id) (v : ℕ) : Prop := (s.place p).pushed = some v

/-- A pop whose CAS on `head` succeeded. -/
def Lifo.Popped (s : Lifo) (q : Id) : Prop := (s.place q).Pops

/-- A bounded stack, its top at the end of the list. -/
def stackSpec (capacity : ℕ) : Spec Op Ret (List ℕ) where
  init := []
  apply
    | st, .push v => if st.length = capacity then (.push (-1), st) else (.push 0, st ++ [v])
    | st, .pop =>
      match st.getLast? with
      | none => (.pop 0, st)
      | some v => (.pop v, st.dropLast)

end Clifo
