/-
# The hash table is linearizable

The calls of `ht_cas`, `ht_get` and `ht_remove` by any number of threads answer as those of a map.

* `mapSpec` — the map; `mapSpec_apply_mapGet`: it is the finite map of the calls by one thread;
* `Glimpsed` — a thread that stands in a table behind `ht->hti` has seen the map without its key,
  when the table has room for it;
* `Stands` — what a thread knows of its call, and `stands_resume`, one step of it;
* `hashtable_linearizable` — whole runs.

A call that writes is decided by its `SYNC_CAS` on the value.  One that does not is decided when
it returns: mostly at that moment, but a lookup in a table that `ht->hti` has passed answers what
the map had when `ht->hti` passed it.
-/
import Ssr.HashtablePlaces
import Ssr.HashtableRuns
import Ssr.HashtableSlots
import Ssr.SeenStates

open Interleaving Map Migration Hashtable Linearizability

namespace HashtableSteps

/-! ## The map -/

/-- A call of `ht_cas`, `ht_get` or `ht_remove`. -/
inductive Request where
  | cas (key expected new : ℕ)
  | get (key : ℕ)
  | remove (key : ℕ)
  deriving DecidableEq, Repr

/-- The same call by a single thread. -/
def Request.toCall : Request → Call
  | cas key expected new => .cas key expected new
  | get key => .get key
  | remove key => .remove key

/-- The map with another value for a key. -/
def put (kt : KeyType) (m : ℕ → Option ℕ) (key : ℕ) (x : Option ℕ) : ℕ → Option ℕ :=
  fun k => if kt.Same key k then x else m k

/-- The map as a sequential object. -/
def mapSpec (kt : KeyType) : Spec Request ℕ (ℕ → Option ℕ) where
  init := fun _ => none
  apply m
    | .cas key expected new =>
      ((m key).getD doesNotExist,
        if Expected expected (m key) then put kt m key (some new) else m)
    | .get key => ((m key).getD doesNotExist, m)
    | .remove key => ((m key).getD doesNotExist, put kt m key none)

/-- The map has `x` for a key. -/
def Has (kt : KeyType) (key : ℕ) (x : Option ℕ) (m : ℕ → Option ℕ) : Prop :=
  ∀ k, kt.Same key k → m k = x

/-- The operation as a call. -/
def Op.request : Op → Request
  | .set a => if a.new = doesNotExist then .remove a.key else .cas a.key a.expected a.new
  | .get k _ => .get k

/-- The operations of `ht_cas`, `ht_get` and `ht_remove`. -/
def Op.Asked : Op → Prop
  | .set a => (a.new = doesNotExist ∧ a.expected = expectWhatever)
      ∨ (Legal a.new ∧ Expectation a.expected)
  | .get _ iter => iter = false

section Spec

variable {kt : KeyType} {m : ℕ → Option ℕ} {o : Op} {a : Args} {key v : ℕ} {x : Option ℕ}

/-- **The map is that of the calls by a single thread.** -/
theorem mapSpec_apply_mapGet (hkt : kt.Lawful) (m : List (ℕ × ℕ)) (q : Request) :
    (mapSpec kt).apply (mapGet kt m) q
      = ((mapCall kt m q.toCall).1, mapGet kt (mapCall kt m q.toCall).2) := by
  have hset : ∀ key v, put kt (mapGet kt m) key (some v) = mapGet kt (mapSet kt m key v) := by
    intro key v
    funext k
    exact (mapGet_set hkt m key v k).symm
  have herase : ∀ key, put kt (mapGet kt m) key none = mapGet kt (mapErase kt m key) := by
    intro key
    funext k
    exact (mapGet_erase hkt m key k).symm
  cases q with
  | cas key expected new =>
    simp only [mapSpec, Request.toCall, mapCall]
    split
    · rw [hset]
    · rfl
  | get key => rfl
  | remove key => simp only [mapSpec, Request.toCall, mapCall, herase]

/-- A store of what is there. -/
theorem put_of_has (hm : Has kt key x m) : put kt m key x = m := by
  funext k
  by_cases hs : kt.Same key k
  · rw [put, if_pos hs, hm k hs]
  · rw [put, if_neg hs]

/-- The value of the key itself. -/
theorem Has.self (hkt : kt.Lawful) (hm : Has kt key x m) : m key = x := hm key (.refl hkt key)

/-- What `ht_get` does to the map. -/
theorem apply_get (hkt : kt.Lawful) (hm : Has kt key x m) :
    (mapSpec kt).apply m (.get key) = (x.getD doesNotExist, m) := by
  simp only [mapSpec, hm.self hkt]

/-- What `ht_remove` does to it. -/
theorem apply_remove (hkt : kt.Lawful) (hm : Has kt key x m) :
    (mapSpec kt).apply m (.remove key) = (x.getD doesNotExist, put kt m key none) := by
  simp only [mapSpec, hm.self hkt]

/-- What `ht_cas` does to it. -/
theorem apply_cas (hkt : kt.Lawful) (hm : Has kt key x m) (expected new : ℕ) :
    (mapSpec kt).apply m (.cas key expected new)
      = (x.getD doesNotExist, if Expected expected x then put kt m key (some new) else m) := by
  simp only [mapSpec, hm.self hkt]

/-- The operation is through when the map does not have the key. -/
theorem apply_stops (hkt : kt.Lawful) (ho : o.Asked) (hs : o.Stops)
    (hm : Has kt o.key none m) : (mapSpec kt).apply m o.request = (doesNotExist, m) := by
  cases o with
  | get k iter => exact apply_get hkt hm
  | set a =>
    unfold Op.request
    by_cases hnew : a.new = doesNotExist
    · simp only [hnew, if_true]
      exact (apply_remove hkt hm).trans (congrArg _ (put_of_has hm))
    · obtain ⟨hw, hd⟩ : a.expected ≠ expectWhatever ∧ a.expected ≠ expectDoesNotExist :=
        hs.resolve_right hnew
      have hnot : ¬ Expected a.expected none := by
        rintro (h | ⟨-, h⟩ | ⟨h, -⟩ | h)
        · exact hw h
        · exact h rfl
        · exact hd h
        · cases h
      simp only [hnew, if_false]
      exact (apply_cas hkt hm ..).trans (congrArg _ (if_neg hnot))

/-- A value that does not exist. -/
theorem meaning_of_not_existed (hv : ¬ Existed v) : meaning v = none := by
  refine if_pos ?_
  by_contra h0
  exact hv ⟨fun h => h0 (.inr h), fun h => h0 (.inl h)⟩

/-- A value that does. -/
theorem meaning_of_legal (hv : Legal v) : meaning v = some v :=
  if_neg (not_or.mpr ⟨hv.1, hv.2.2⟩)

/-- `hti_cas` stores nothing when the map is as the call leaves it. -/
theorem apply_keeps (hkt : kt.Lawful) (ho : (Op.set a).Asked) (hst : Stored v) (ht : ¬ IsTagged v)
    (hk : a.Keeps v) (hm : Has kt a.key (meaning v) m) :
    (mapSpec kt).apply m (Op.set a).request = (result v, m) := by
  have hres : result v = (meaning v).getD doesNotExist := meaning_getD v
  rw [Op.request, hres]
  obtain ⟨hnew, hexp⟩ | ⟨hnew, hexp⟩ := ho
  · have hnone : meaning v = none := by
      obtain ⟨h, -⟩ | ⟨-, h⟩ | h := hk
      · exact absurd hexp h
      · exact meaning_of_not_existed h
      · exact if_pos (.inl (h.trans hnew))
    rw [if_pos hnew, apply_remove hkt hm]
    rw [hnone] at hm ⊢
    rw [put_of_has hm]
  · rw [if_neg hnew.1, apply_cas hkt hm]
    have hsame : v = a.new → put kt m a.key (some a.new) = m := by
      rintro heq
      refine put_of_has ?_
      rw [heq, meaning_of_legal hnew] at hm
      exact hm
    obtain h | ⟨h, -⟩ | h := hk
    · rw [if_neg]
      exact fun hexp' => (expected_iff hexp hst ht).mpr hexp' h
    · exact absurd h hnew.1
    · rw [hsame h, ite_self]

/-- The `SYNC_CAS` of `hti_cas` on a value does what the call does to the map. -/
theorem apply_swap (hkt : kt.Lawful) (ho : (Op.set a).Asked) (hst : Stored v) (ht : ¬ IsTagged v)
    (hk : ¬ a.Keeps v) (hm : Has kt a.key (meaning v) m) :
    (mapSpec kt).apply m (Op.set a).request = (result v, put kt m a.key (meaning a.word)) := by
  have hres : result v = (meaning v).getD doesNotExist := meaning_getD v
  rw [Op.request, hres]
  obtain ⟨hnew, -⟩ | ⟨hnew, hexp⟩ := ho
  · rw [if_pos hnew, apply_remove hkt hm, Args.word, if_pos hnew]
    rfl
  · rw [if_neg hnew.1, apply_cas hkt hm, Args.word, if_neg hnew.1, meaning_of_legal hnew, if_pos]
    exact (expected_iff hexp hst ht).mp fun h => hk (.inl h)

end Spec

/-! ## What the tables say of the map -/

section Map

variable {kt : KeyType} {h h' : Ht} {s : Shared} {o : Op} {key k i j e : ℕ} {x : Option ℕ}

/-- Equal keys have one value. -/
theorem absMap_same (hkt : kt.Lawful) (hs : kt.Same key k) : h.absMap kt k = h.absMap kt key := by
  have hcol : h.cell kt k = h.cell kt key := by
    funext i
    exact (Ht.cell_same hkt hs).symm
  rw [Ht.absMap, Ht.absMap, hcol]

/-- What the map has for the key. -/
theorem has_absMap (hkt : kt.Lawful) (hx : h.absMap kt key = x) : Has kt key x (h.absMap kt) :=
  fun _ hs => (absMap_same hkt hs).trans hx

/-- An operation that is not behind `ht->hti`. -/
theorem OpAt.absMap (ho : OpAt kt h o i) (hiter : o.iter = false) (hbi : h.hti ≤ i) :
    h.absMap kt o.key = value (h.cell kt o.key) i h.len :=
  value_of_passed hbi ho.lt.le (ho.passed hiter)

/-- A key that was never set. -/
theorem absMap_of_vacant (hlt : h.hti < h.len) (hv : h.cell kt key h.hti = .vacant) :
    h.absMap kt key = none :=
  value_of_read hlt (by rw [hv]; rfl)

/-- A key that meets a vacant cell has no value. -/
theorem OpAt.has_of_vacant (hkt : kt.Lawful) (ho : OpAt kt h o i) (hiter : o.iter = false)
    (hbi : h.hti ≤ i) (hv : h.cell kt o.key i = .vacant) : Has kt o.key none (h.absMap kt) := by
  refine has_absMap hkt ?_
  rw [ho.absMap hiter hbi]
  exact value_of_read ho.lt (by rw [hv]; rfl)

/-- An entry without a tag has the value of its key. -/
theorem OpAt.has_of_entry (hkt : kt.Lawful) (hi : s.Inv kt) (ho : OpAt kt s.ht o i)
    (hiter : o.iter = false) (he : EntryOf kt s.ht o.key i e) (ht : ¬ IsTagged (s.ht.val i e)) :
    Has kt o.key (meaning (s.ht.val i e)) (s.ht.absMap kt) := by
  have hbi : s.ht.hti ≤ i :=
    hi.chain.base_le (hi.chain.find_lt ho.lt he.1) fun hd => ht hd.isTagged
  refine has_absMap hkt ?_
  rw [ho.absMap hiter hbi]
  refine value_of_read ho.lt ?_
  rw [Ht.cell_of_key he.1 he.2]
  exact cellOf_read (hi.chain.stored i e ho.lt) ht

/-- A key that has no room in the last table is in none. -/
theorem OpAt.has_of_last (hkt : kt.Lawful) (hi : s.Inv kt) (ho : OpAt kt s.ht o i)
    (hiter : o.iter = false) (hf : s.ht.find kt o.key i = none) (hlast : ¬ i + 1 < s.ht.len) :
    Has kt o.key none (s.ht.absMap kt) := by
  have hbase := hi.chain.base_lt
  have hlt := ho.lt
  refine has_absMap hkt ?_
  rw [ho.absMap hiter (by omega), value_of_read_none hlt, value_of_le (by omega)]
  rw [Ht.cell_of_none hf]
  rfl

/-- A cell that is vacant was vacant before. -/
theorem vacant_before (hg : Grows kt h h') (hj : j < h.len) (hv : h'.cell kt key j = .vacant) :
    h.cell kt key j = .vacant := by
  obtain ⟨-, hf⟩ | hc | ⟨e, hf, hne, -⟩ := cell_cases kt h key j
  · rw [Ht.cell_of_none (hg.persists.find_none hj hf)] at hv
    cases hv
  · exact hc
  · have hinst := cellOf_installed (h'.val j e)
    rw [← Ht.cell_of_key (hg.persists.find_some hj hf hne) (hg.persists.key_ne hj hne), hv] at hinst
    exact hinst.elim

end Map

/-! ## What a thread knows of its call -/

/-- The calls of a step. -/
def Cmd.called : Cmd → Option Request
  | .cas a => some (.cas a.key a.expected a.new)
  | .get k => some (.get k)
  | .remove k => some (.remove k)
  | .iter | .next _ _ | .resume => none

/-- What the thread has returned. -/
def Pc.returns : Pc → Option ℕ
  | .returned v => some v
  | _ => none

/-- The operation that is about to load `ht->hti`. -/
def Begin.asks : Begin → Option Op
  | .cas a => some (.set a)
  | .op o => some o
  | .iter => none

/-- The order of the calls. -/
abbrev Log := List ((ℕ × ℕ) × Request × ℕ)

section Stands

variable (kt : KeyType) (h : Ht) (g : Record Request ℕ) (log : Log) (r : ℕ × ℕ)

/-- From table `i` on, a table that `ht->hti` has passed has no room for the key, unless the call
has seen the map without it. -/
def Glimpsed (key i : ℕ) : Prop :=
  ∀ j, i ≤ j → j < h.hti → h.cell kt key j = .vacant →
    Saw (mapSpec kt) g.events log r (Has kt key none)

/-- Call `r` is on its way with an operation. -/
structure Busy (o : Op) : Prop where
  asked : o.Asked
  pending : Pending g log r o.request

/-- What a thread knows of its call `r`. -/
structure Stands (pc : Pc) : Prop where
  begins : ∀ b, pc = .hti b → ∃ o, b.asks = some o ∧ Busy g log r o
  runs : ∀ o i, pc.place = some (o, i) → Busy g log r o ∧ Glimpsed kt h g log r o.key i
  counts : ∀ a i v, pc = .count a i v → ∃ o, (r, o, result v) ∈ log
  rest : pc.place = none → (∃ v, pc = .returned v) ∨ (∃ b, pc = .hti b) ∨ ∃ a i v, pc = .count a i v

end Stands

/-- What thread `u` relies on. -/
structure Regards (kt : KeyType) (u : ℕ) (s : Shared) (g : Record Request ℕ) (log : Log)
    (s' : Shared) (g' : Record Request ℕ) (log' : Log) : Prop where
  base : Rely kt u s s'
  follows : Follows (mapSpec kt) u g log g' log'
  blank : ∀ r key j, r.1 = u → s.ht.hti ≤ j → j < s'.ht.hti → s'.ht.cell kt key j = .vacant →
    Saw (mapSpec kt) g'.events log' r (Has kt key none)

section Calls

variable {kt : KeyType} {s s' : Shared} {g g' : Record Request ℕ} {log log' : Log} {r : ℕ × ℕ}
  {t : ℕ} {pc pc' : Pc} {o : Op} {a : Args} {key i i' v : ℕ}

/-- A call goes on. -/
theorem Busy.stable (hf : Follows (mapSpec kt) r.1 g log g' log') (hb : Busy g log r o) :
    Busy g' log' r o :=
  ⟨hb.asked, hb.pending.stable hf rfl⟩

/-- What was glimpsed before a table was so before the next. -/
theorem Glimpsed.mono (hii : i ≤ i') (hgl : Glimpsed kt s.ht g log r key i) :
    Glimpsed kt s.ht g log r key i' :=
  fun j hj => hgl j (hii.trans hj)

/-- What was glimpsed stays so. -/
theorem Glimpsed.stable (hi : s.Inv kt) (hg : Grows kt s.ht s'.ht)
    (hsaw : ∀ P, Saw (mapSpec kt) g.events log r P → Saw (mapSpec kt) g'.events log' r P)
    (hblank : ∀ j, s.ht.hti ≤ j → j < s'.ht.hti → s'.ht.cell kt key j = .vacant →
      Saw (mapSpec kt) g'.events log' r (Has kt key none))
    (hgl : Glimpsed kt s.ht g log r key i) : Glimpsed kt s'.ht g' log' r key i := by
  intro j hij hj hv
  by_cases hbj : s.ht.hti ≤ j
  · exact hblank j hbj hj hv
  · have hlt : j < s.ht.len := (not_le.mp hbj).trans hi.chain.base_lt
    exact hsaw _ (hgl j hij (not_le.mp hbj) (vacant_before hg hlt hv))

/-- **What a call rests on** is stable. -/
theorem Stands.stable (hi : s.Inv kt) (hr : Regards kt r.1 s g log s' g' log')
    (hs : Stands kt s.ht g log r pc) : Stands kt s'.ht g' log' r pc where
  begins b hb := by
    obtain ⟨o, ho, hbusy⟩ := hs.begins b hb
    exact ⟨o, ho, hbusy.stable hr.follows⟩
  runs o i hp := by
    obtain ⟨hbusy, hgl⟩ := hs.runs o i hp
    exact ⟨hbusy.stable hr.follows, hgl.stable hi hr.base.grows (fun P => hr.follows.saw r P rfl)
      fun j => hr.blank r o.key j rfl⟩
  counts a i v hpc := by
    obtain ⟨o, ho⟩ := hs.counts a i v hpc
    exact ⟨o, hr.follows.order _ ho⟩
  rest := hs.rest

/-- A call that has returned. -/
theorem stands_returned (v : ℕ) : Stands kt s.ht g log r (.returned v) :=
  ⟨fun _ heq => Pc.noConfusion heq, fun _ _ heq => absurd heq.symm (Option.some_ne_none _),
    fun _ _ _ heq => Pc.noConfusion heq, fun _ => .inl ⟨v, rfl⟩⟩

/-- A call at an entry. -/
theorem stands_of_place (hp : pc.place = some (o, i)) (hb : Busy g log r o)
    (hgl : Glimpsed kt s.ht g log r o.key i) : Stands kt s.ht g log r pc where
  begins := by
    rintro b rfl
    cases hp
  runs o' i' hp' := by
    cases hp.symm.trans hp'
    exact ⟨hb, hgl⟩
  counts := by
    rintro a i v rfl
    cases hp
  rest hnone := by
    rw [hp] at hnone
    cases hnone

end Calls

/-! ## One step -/

section Step

variable {kt : KeyType} {s s' : Shared} {g : Record Request ℕ} {log : Log} {t : ℕ} {pc pc' : Pc}
  {o : Op} {a : Args} {i e v : ℕ}

/-- The order explains the history and the map. -/
abbrev Settled (kt : KeyType) (s : Shared) (g : Record Request ℕ) (log : Log) : Prop :=
  Justified (mapSpec kt) (s.ht.absMap kt) g log

/-- There is an order for a step of thread `t`, after which it stands at `pc'`. -/
def Goes (kt : KeyType) (g : Record Request ℕ) (log : Log) (t : ℕ) (s' : Shared) (pc' : Pc) : Prop :=
  ∃ log', Settled kt s' (g.note t none pc'.returns) log'
    ∧ Stands kt s'.ht (g.note t none pc'.returns) log' (g.current t) pc'
    ∧ ∀ u, u ≠ t → Follows (mapSpec kt) u g log (g.note t none pc'.returns) log'

/-- The call was decided and returns. -/
theorem goes_answer {log' : Log} (hj : Settled kt s' g log')
    (hd : ∃ o, (g.current t, o, v) ∈ log')
    (hf : ∀ u, u ≠ t → Follows (mapSpec kt) u g log g log') :
    Goes kt g log t s' (.returned v) := by
  obtain ⟨o, hd⟩ := hd
  obtain ⟨hj', hf'⟩ := hj.ret hd
  exact ⟨log', hj', stands_returned v, fun u hu => (hf u hu).trans (hf' u hu)⟩

/-- The call returns what the map had at a moment of it. -/
theorem goes_read {P : (ℕ → Option ℕ) → Prop} (hj : Settled kt s g log)
    (hb : Busy g log (g.current t) o) (hs : Saw (mapSpec kt) g.events log (g.current t) P)
    (hP : ∀ m, P m → (mapSpec kt).apply m o.request = (v, m)) :
    Goes kt g log t s (.returned v) := by
  obtain ⟨log', hj', hd, hf⟩ := hj.read hb.pending hs hP
  exact goes_answer hj' ⟨_, hd⟩ hf

/-- The thread goes on with its operation. -/
theorem goes_on (hj : Settled kt s' g log) (hp : pc'.place = some (o, i))
    (hb : Busy g log (g.current t) o) (hgl : Glimpsed kt s'.ht g log (g.current t) o.key i) :
    Goes kt g log t s' pc' := by
  have hret : pc'.returns = none := by
    cases pc' with
    | returned v => cases hp
    | _ => rfl
  refine ⟨log, ?_, ?_, fun u _ => ?_⟩ <;> rw [hret]
  · exact hj
  · exact stands_of_place hp hb hgl
  · exact Follows.refl _ u g log

/-- A call that was asked for is none of an iterator. -/
theorem Op.Asked.iter (ho : o.Asked) : o.iter = false := by
  cases o with
  | set a => rfl
  | get k iter => exact ho

/-- **The steps with which an operation is through.** -/
theorem goes_ends (hkt : kt.Lawful) (hi : s.Inv kt) (hl : Loc kt t s pc) (hj : Settled kt s g log)
    (hp : pc.place = some (o, i)) (hb : Busy g log (g.current t) o)
    (hgl : Glimpsed kt s.ht g log (g.current t) o.key i) (hend : Ends s pc s' pc') :
    Goes kt g log t s' pc' := by
  have hnow : ∀ {P}, P (s.ht.absMap kt) → Saw (mapSpec kt) g.events log (g.current t) P :=
    fun hP => saw_now hj.tracks hj.legal hP
  have hk := hl.knows
  cases hend with
  | empty o' j e rest hempty hstop =>
    cases hp
    obtain ⟨ho, hfind⟩ : OpAt kt s.ht o i ∧ Finding kt s.ht o.key i (e :: rest) := hk
    have hv := Ht.cell_of_empty (Finding.empty hfind hempty) hempty
    refine goes_read hj hb ?_ fun m hm => apply_stops hkt hb.asked hstop hm
    by_cases hbi : s.ht.hti ≤ i
    · exact hnow (ho.has_of_vacant hkt hb.asked.iter hbi hv)
    · -- the table was passed during the call
      exact hgl i le_rfl (not_le.mp hbi) hv
  | keeps a j e ht hkeeps =>
    cases hp
    obtain ⟨ho, he⟩ : OpAt kt s.ht (.set a) i ∧ EntryOf kt s.ht a.key i e := hk
    refine goes_read hj hb (hnow (ho.has_of_entry hkt hi rfl he ht)) fun m hm => ?_
    exact apply_keeps hkt hb.asked (hi.chain.stored i e ho.lt) ht hkeeps hm
  | swap a j e v hv =>
    cases hp
    obtain ⟨ho, he, ht, hkeeps⟩ : OpAt kt s.ht (.set a) i ∧ EntryOf kt s.ht a.key i e
      ∧ ¬ IsTagged v ∧ ¬ a.Keeps v := hk
    have hw := (swapped hkt hi hl.knows hv).wrote
    have hmap : put kt (s.ht.absMap kt) a.key (meaning a.word)
        = (s.setVal i e a.word).ht.absMap kt := by
      funext k
      by_cases hs : kt.Same a.key k
      · exact (if_pos hs).trans (hw.after k hs).symm
      · exact (if_neg hs).trans (hw.others k hs).symm
    have happly := apply_swap hkt hb.asked (hv ▸ hi.chain.stored i e ho.lt) ht hkeeps hw.before
    rw [hmap] at happly
    obtain ⟨hj', hf⟩ := hj.write hb.pending happly
    have hd : ∃ o, (g.current t, o, result v) ∈ log ++ [(g.current t, (Op.set a).request, result v)] :=
      ⟨_, List.mem_append_right _ (List.mem_singleton_self _)⟩
    split_ifs
    · exact goes_answer hj' hd hf
    · refine ⟨_, hj', ⟨fun _ heq => Pc.noConfusion heq, fun _ _ heq => absurd heq.symm (Option.some_ne_none _), ?_,
        fun _ => .inr (.inr ⟨a, i, v, rfl⟩)⟩, hf⟩
      rintro a' i' v' heq
      cases heq
      exact hd
  | last k iter j hlast =>
    cases hp
    obtain rfl : iter = false := hb.asked
    obtain ⟨ho, hf⟩ : OpAt kt s.ht (.get k false) i ∧ s.ht.find kt k i = none := hk rfl
    refine goes_read hj hb (hnow (ho.has_of_last hkt hi rfl hf hlast)) fun m hm => ?_
    exact apply_get hkt hm
  | value k iter j e ht =>
    cases hp
    obtain ⟨ho, he⟩ : OpAt kt s.ht (.get k iter) i ∧ EntryOf kt s.ht k i e := hk
    refine goes_read hj hb (hnow (ho.has_of_entry hkt hi hb.asked.iter he ht)) fun m hm => ?_
    exact (apply_get hkt hm).trans (congrArg (·, m) (meaning_getD _).symm)

/-- The map is as before, unless a `SYNC_CAS` on a value succeeds. -/
theorem settled_step (hkt : kt.Lawful) (hi : s.Inv kt) (hl : Loc kt t s pc)
    (hj : Settled kt s g log) (hstep : resume kt t s pc = some (s', pc'))
    (hswap : ∀ a i e v, pc = .swap a i e v → pc'.answer = none) : Settled kt s' g log := by
  have hmap : s'.ht.absMap kt = s.ht.absMap kt := by
    obtain hmap | ⟨a, i, e, v, hpc, -, -, hsome, -⟩ := (resume_ok hkt hi hl hstep).map
    · exact funext hmap
    · rw [show pc'.answer = _ from hsome] at hswap
      cases hswap a i e v hpc
  rw [Settled, hmap]
  exact hj

/-- When `ht->hti` passes a table that has room for a key, the map does not have it. -/
theorem blank_step (hkt : kt.Lawful) (hi : s.Inv kt) (hl : Loc kt t s pc)
    (hj : Settled kt s g log) (hstep : resume kt t s pc = some (s', pc')) (r : ℕ × ℕ) (key j : ℕ)
    (hbj : s.ht.hti ≤ j) (hlt : j < s'.ht.hti) (hv : s'.ht.cell kt key j = .vacant) :
    Saw (mapSpec kt) g.events log r (Has kt key none) := by
  have hg : Grows kt s.ht s'.ht :=
    ((resume_ok hkt hi hl hstep).rely (t + 1) (Nat.succ_ne_self t)).grows
  obtain rfl : j = s.ht.hti := by
    have := hti_step hstep
    omega
  refine saw_now hj.tracks hj.legal (has_absMap hkt (absMap_of_vacant hi.chain.base_lt ?_))
  exact vacant_before hg hi.chain.base_lt hv

/-- **One step of a running call.** -/
theorem stands_resume (hkt : kt.Lawful) (hi : s.Inv kt) (hl : Loc kt t s pc)
    (hj : Settled kt s g log) (hs : Stands kt s.ht g log (g.current t) pc)
    (hstep : resume kt t s pc = some (s', pc')) : Goes kt g log t s' pc' := by
  cases hp : pc.place with
  | some x =>
    obtain ⟨o, i⟩ := x
    obtain ⟨hb, hgl⟩ := hs.runs o i hp
    obtain ⟨i', hii, hp'⟩ | hend := place_step hstep hp
    · have hans : pc'.answer = none := by
        cases pc' with
        | returned | count => cases hp'
        | _ => rfl
      have hg : Grows kt s.ht s'.ht :=
        ((resume_ok hkt hi hl hstep).rely (t + 1) (Nat.succ_ne_self t)).grows
      refine goes_on (settled_step hkt hi hl hj hstep fun _ _ _ _ _ => hans) hp' hb
        ((hgl.mono hii).stable hi hg (fun _ => id) fun j => ?_)
      exact blank_step hkt hi hl hj hstep (g.current t) o.key j
    · exact goes_ends hkt hi hl hj hp hb hgl hend
  | none =>
    obtain ⟨v, rfl⟩ | ⟨b, rfl⟩ | ⟨a, i, v, rfl⟩ := hs.rest hp
    · cases hstep
    · obtain ⟨o, ho, hb⟩ := hs.begins b rfl
      -- no table behind `ht->hti` is met from here
      have hgl : Glimpsed kt s.ht g log (g.current t) o.key s.ht.hti := fun j hij hlt =>
        absurd hlt (not_lt.mpr hij)
      cases b with
      | cas a =>
        cases ho
        cases hstep
        exact goes_on hj rfl hb hgl
      | op o' =>
        cases ho
        cases hstep
        exact goes_on hj (start_place ..) hb hgl
      | iter => cases ho
    · have hd := hs.counts a i v rfl
      have hj' := settled_step hkt hi hl hj hstep fun _ _ _ _ heq => Pc.noConfusion heq
      cases hstep
      exact goes_answer hj' hd fun u _ => Follows.refl _ u g log

/-! ## Whole runs -/

/-- The condition on a step: no iterator, and an expectation that `ht_cas` knows. -/
def Cmd.Plain : Cmd → Prop
  | .cas a => Expectation a.expected
  | .get _ | .remove _ | .resume => True
  | .iter | .next _ _ => False

instance (cmd : Cmd) : Decidable cmd.Plain :=
  match cmd with
  | .cas a => inferInstanceAs (Decidable (a.expected = expectDoesNotExist
      ∨ a.expected = expectExists ∨ a.expected = expectWhatever ∨ Legal a.expected))
  | .get _ | .remove _ | .resume => inferInstanceAs (Decidable True)
  | .iter | .next _ _ => inferInstanceAs (Decidable False)

/-- The program with the record of its calls. -/
abbrev recorded (kt : KeyType) : ℕ → Shared × Record Request ℕ → Pc → Cmd →
    Option ((Shared × Record Request ℕ) × Pc) :=
  withStory (step kt) (Record.after (step kt) Cmd.called Pc.returns)

/-- A call. -/
theorem goes_call (hj : Settled kt s g log) (t : ℕ) {b : Begin} (hb : b.asks = some o)
    (ho : o.Asked) :
    Settled kt s (g.call t o.request) log
      ∧ Stands kt s.ht (g.call t o.request) log ((g.call t o.request).current t) (.hti b)
      ∧ ∀ u, u ≠ t → Follows (mapSpec kt) u g log (g.call t o.request) log := by
  obtain ⟨hj', hp, hf⟩ := hj.call t o.request
  refine ⟨hj', ⟨?_, fun _ _ heq => absurd heq.symm (Option.some_ne_none _), fun _ _ _ heq => Pc.noConfusion heq,
    fun _ => .inr (.inl ⟨b, rfl⟩)⟩, hf⟩
  rintro b' heq
  cases heq
  exact ⟨o, hb, ho, hp⟩

/-- The calls, with what they begin. -/
theorem invoke_asks {cmd : Cmd} (h : invoke pc cmd = some pc') (hok : cmd.Plain) :
    ∃ b o, pc' = .hti b ∧ b.asks = some o ∧ o.Asked ∧ cmd.called = some o.request := by
  cases pc with
  | returned v =>
    cases cmd with
    | cas a =>
      simp only [invoke, Option.ite_none_right_eq_some] at h
      obtain ⟨⟨-, hnew⟩, heq⟩ := h
      cases heq
      refine ⟨_, .set a, rfl, rfl, .inr ⟨hnew, hok⟩, ?_⟩
      rw [Op.request, if_neg hnew.1]
      rfl
    | get k =>
      cases h
      exact ⟨_, _, rfl, rfl, rfl, rfl⟩
    | remove k =>
      simp only [invoke, Option.ite_none_right_eq_some] at h
      obtain ⟨-, heq⟩ := h
      cases heq
      exact ⟨_, _, rfl, rfl, .inl ⟨rfl, rfl⟩, rfl⟩
    | iter | next => exact hok.elim
    | resume => cases h
  | _ => cases cmd <;> cases h

/-- **Every step is explained** by what was decided. -/
theorem explains (hkt : kt.Lawful) : Explains (recorded kt) (fun _ _ _ cmd => cmd.Plain)
    (fun s log => s.1.Inv kt ∧ Settled kt s.1 s.2 log)
    (fun t s log pc => Loc kt t s.1 pc ∧ Stands kt s.1.ht s.2 log (s.2.current t) pc)
    (fun u s log s' log' => Regards kt u s.1 s.2 log s'.1 s'.2 log') where
  guarantee := by
    rintro t ⟨s, g⟩ log pc cmd ⟨s', g'⟩ pc' ⟨hi, hj⟩ ⟨hl, hs⟩ hok hstep
    obtain ⟨hprog, hg'⟩ := withStory_eq_some.mp hstep
    have hstep_ok := step_ok hkt hi hl hprog
    simp only [Record.after, hprog] at hg'
    subst hg'
    by_cases hc : cmd = .resume
    · subst hc
      obtain ⟨log', hj', hs', hf⟩ := stands_resume hkt hi hl hj hs hprog
      refine ⟨log', ⟨hstep_ok.inv, hj'⟩, ⟨hstep_ok.loc, ?_⟩, fun u hu =>
        ⟨hstep_ok.rely u hu, hf u hu, fun r key j hr hbj hlt hv => ?_⟩⟩
      · simp only [Cmd.called, Record.current_note]
        exact hs'
      · exact (hf u hu).saw r _ hr (blank_step hkt hi hl hj hprog r key j hbj hlt hv)
    · have hinv : (invoke pc cmd).map (fun pc' => (s, pc')) = some (s', pc') := by
        rw [← hprog]
        cases cmd <;> first | rfl | exact absurd rfl hc
      obtain ⟨pc'', hinv, heq⟩ := Option.map_eq_some_iff.mp hinv
      cases heq
      obtain ⟨b, o, rfl, hb, ho, hcalled⟩ := invoke_asks hinv hok
      obtain ⟨hj', hs', hf⟩ := goes_call hj t hb ho
      rw [hcalled]
      exact ⟨log, ⟨hstep_ok.inv, hj'⟩, ⟨hstep_ok.loc, hs'⟩, fun u hu =>
        ⟨hstep_ok.rely u hu, hf u hu, fun r key j _ hbj hlt _ => absurd hlt (not_lt.mpr hbj)⟩⟩
  stable := by
    rintro u ⟨s, g⟩ log ⟨s', g'⟩ log' pc ⟨hi, hj⟩ hr ⟨hl, hs⟩
    refine ⟨hl.stable hr.base, ?_⟩
    change Stands kt s'.ht g' log' (g'.current u) pc
    rw [hr.follows.current]
    exact Stands.stable (r := g.current u) hi hr hs

end Step

/-- The history of a run. -/
abbrev callHistory (kt : KeyType) (es : List (ℕ × Cmd)) : List (Event (ℕ × ℕ) Request ℕ) :=
  history (step kt) Cmd.called Pc.returns init es

/-- **Linearizability of the hash table.**  For integer keys with any hash function, or keys of any
lawful type, in every run of any number of threads, through any growth and copying of the tables:
the calls of `ht_cas`, `ht_get` and `ht_remove` answer as those of a map, in an order that agrees
with the order of the calls in time. -/
theorem hashtable_linearizable (kt : KeyType) (hkt : kt.Lawful) (es : List (ℕ × Cmd))
    (c : Conf Shared Pc) (hok : ∀ e ∈ es, e.2.Plain) (hrun : run (sys kt) init es = some c) :
    Linearizable (mapSpec kt) (callHistory kt es) := by
  obtain ⟨g, hg⟩ := run_withStory (Record.after (step kt) Cmd.called Pc.returns) Record.init hrun
  have hmeets : StepsMeet (interleave (recorded kt)) (onThread fun _ _ _ cmd => cmd.Plain)
      (init.withStory Record.init) es :=
    (stepsMeet_of_forall_mem hok _).mono fun _ _ he => he
  obtain ⟨hi, hl⟩ := init_holds kt
  have hj : Settled kt init.shared Record.init [] := by
    refine ⟨Tracks.nil, ?_, fun _ _ hv => absurd hv List.not_mem_nil, Record.numbered_init⟩
    exact congrArg some (funext (absMap_init kt)).symm
  obtain ⟨log, ⟨-, hlog⟩, -⟩ := (explains hkt).holds_run (c := init.withStory Record.init)
    (g := ([] : Log)) ⟨hi, hj⟩ (fun t => ⟨hl t, stands_returned 0⟩) hmeets hg
  have hhist : callHistory kt es = g.events := by
    simp only [callHistory, history, hg]
    rfl
  rw [hhist]
  exact hlog.linearizable

/-- A hash function that keeps five keys in one bucket. -/
def oneBucket : KeyType := .integer fun k => if k ≤ 5 then 2 ^ 63 + 5 else 0

/-- Thread 0 fills a bucket, and thread 1 is about to look its key up in the first table.  Then
thread 0 sets another key three times, so that the table is copied, and sets the key of thread 1 in
the next table; thread 1 does not find it. -/
def passedTable : List (ℕ × Cmd) :=
  List.flatten [
    (List.range 4).flatMap fun k => alone 0 (.cas ⟨k + 1, expectWhatever, k + 100⟩) (k + 9),
    alone 0 (.remove 1) 5, [(1, .get 20), (1, .resume)],
    alone 0 (.cas ⟨5, expectWhatever, 7⟩) 48, alone 0 (.cas ⟨5, expectWhatever, 8⟩) 97,
    alone 0 (.cas ⟨5, expectWhatever, 9⟩) 69, alone 0 (.cas ⟨20, expectWhatever, 7⟩) 9,
    [(1, .resume)]]

/-- A key that is set in a table which the lookup has passed. -/
theorem hashtable_linearizable_passed_table :
    (callHistory oneBucket passedTable).drop 10
        = [.call (1, 1) (.get 20), .call (0, 6) (.cas 5 expectWhatever 7), .ret (0, 6) 0,
          .call (0, 7) (.cas 5 expectWhatever 8), .ret (0, 7) 7,
          .call (0, 8) (.cas 5 expectWhatever 9), .ret (0, 8) 8,
          .call (0, 9) (.cas 20 expectWhatever 7), .ret (0, 9) 0, .ret (1, 1) 0]
      ∧ Linearizable (mapSpec oneBucket) (callHistory oneBucket passedTable) := by
  obtain ⟨c, hc⟩ := Option.isSome_iff_exists.mp
    (show (run (sys oneBucket) init passedTable).isSome by decide +kernel)
  exact ⟨by decide +kernel,
    hashtable_linearizable oneBucket trivial passedTable c (by decide +kernel) hc⟩

end HashtableSteps
