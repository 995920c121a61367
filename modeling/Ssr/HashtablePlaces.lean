/-
# Where an operation of the hash table stands

`ht_cas`, `ht_get` and `ht_remove` go from table to table, and copy entries on the way.

* `Pc.place` — the operation of a thread and the table to which it has come;
* `Ends` — the five steps with which an operation is through;
* `place_step` — every other step goes on with the operation, never to a table before;
* `hti_step` — `ht->hti` goes on by one table at a time.
-/
import Ssr.HashtableGuarantee

open Interleaving Map Migration Hashtable

namespace HashtableSteps

/-! ## Places -/

/-- The place of the caller of `hti_help_copy`. -/
def whoPlace (who : Option Args) (i : ℕ) : Option (Op × ℕ) := who.map fun a => (.set a, i)

/-- The place of what calls `hti_copy_entry`. -/
def Copy.place (c : Copy) : Option (Op × ℕ) :=
  match c.src with
  | .op o => some (o, c.i)
  | .help g => whoPlace g.who c.i

/-- The place of what calls `hti_lookup`. -/
def Finder.place (j : ℕ) : Finder → Option (Op × ℕ)
  | .op o => some (o, j)
  | .copy c _ _ => c.place

/-- The place of what calls `hti_start_copy`. -/
def Grower.place (j : ℕ) : Grower → Option (Op × ℕ)
  | .set a => some (.set a, j)
  | .copy c => c.place

/-- The operation of a thread and the table to which it has come; none before it has loaded
`ht->hti`, none when its answer is settled, and none for an iterator. -/
def Pc.place : Pc → Option (Op × ℕ)
  | .returned _ | .hti _ | .iterNext _ | .count _ _ _ => none
  | .check who i | .helpTotal who i | .helpScan who i _ | .helpStore who i _ _ => whoPlace who i
  | .helpAdd g i => whoPlace g.who i
  | .unlinkNext a i | .unlink a i | .install a i _ | .key a i _ _ | .keyCount a i _ | .val a i _
  | .swap a i _ _ => some (.set a, i)
  | .nextTable o i | .addCopied o i => some (o, i)
  | .find f j _ _ => f.place j
  | .growNext g j | .growHti g j | .growCount g j _ _ | .growStep g j _ _ | .growKeys g j _
  | .growCas g j _ => g.place j
  | .getNext k iter i | .getVal k iter i _ => some (.get k iter, i)
  | .copyTo c _ | .copyVal c _ | .copyKill c _ | .copyTag c _ | .copyKey c _ _
  | .copyInstall c _ _ _ _ | .copyKeyCount c _ _ _ | .copyPut c _ _ _ | .copyStore c _ _
  | .copySub c _ | .copyAdd c _ => c.place

section Next

variable (kt : KeyType) (h : Ht) (o : Op) (f : Finder) (c : Copy) (g : Help) (who : Option Args)
  (i j e : ℕ)

@[simp] theorem search_place (rest : List ℕ) : (f.search j rest).place = f.place j := by
  cases rest with
  | nil => rcases f with (a | key) | _ <;> rfl
  | cons e rest => rfl

@[simp] theorem start_place : (o.start kt h i).place = some (o, i) :=
  search_place (.op o) i _

@[simp] theorem grower_next_place (g : Grower) : (g.next j).place = g.place j := by
  cases g <;> rfl

@[simp] theorem found_place : (f.found j e).place = f.place j := by
  rcases f with (a | key) | _ <;> rfl

@[simp] theorem helped_place (finished : Bool) :
    (helped kt h who i finished).place = whoPlace who i := by
  cases who with
  | none => cases finished <;> rfl
  | some a =>
    cases finished
    · exact start_place kt h (.set a) i
    · rfl

@[simp] theorem help_next_place : (g.next kt h i e).place = whoPlace g.who i := by
  unfold Help.next
  cases g.left with
  | zero =>
    by_cases hn : g.num = 0
    · simp only [hn, if_true, helped_place]
    · simp only [hn, if_false]
      rfl
  | succ n => rfl

@[simp] theorem copy_next_place (did : Bool) : (c.next kt h did).place = c.place := by
  unfold Copy.next Copy.place
  cases c.src with
  | op o => cases did <;> rfl
  | help g => exact help_next_place kt h _ c.i _

end Next

/-! ## Steps -/

/-- `hti_lookup` has returned an empty entry, and the operation is through: there is nothing to
read or to remove, and the expectation is not met. -/
def Op.Stops : Op → Prop
  | .set a => (a.expected ≠ expectWhatever ∧ a.expected ≠ expectDoesNotExist) ∨ a.new = doesNotExist
  | .get _ _ => True

/-- The steps with which an operation is through. -/
inductive Ends (s : Shared) : Pc → Shared → Pc → Prop where
  | empty (o : Op) (j e : ℕ) (rest : List ℕ) : s.ht.key j e = doesNotExist → o.Stops →
      Ends s (.find (.op o) j e rest) s (.returned doesNotExist)
  | keeps (a : Args) (i e : ℕ) : ¬ IsTagged (s.ht.val i e) → a.Keeps (s.ht.val i e) →
      Ends s (.val a i e) s (.returned (result (s.ht.val i e)))
  | swap (a : Args) (i e v : ℕ) : s.ht.val i e = v →
      Ends s (.swap a i e v) (s.setVal i e a.word)
        (if Existed v ↔ a.new ≠ doesNotExist then .returned (result v) else .count a i v)
  | last (key : ℕ) (iter : Bool) (i : ℕ) : ¬ i + 1 < s.ht.len →
      Ends s (.getNext key iter i) s (.returned doesNotExist)
  | value (key : ℕ) (iter : Bool) (i e : ℕ) : ¬ IsTagged (s.ht.val i e) →
      Ends s (.getVal key iter i e) s (.returned (result (s.ht.val i e)))

section Steps

variable {kt : KeyType} {t : ℕ} {s s' : Shared} {pc pc' : Pc} {o : Op} {i : ℕ}

/-- **Every other step goes on with the operation**, and never to a table before. -/
theorem place_step (hstep : resume kt t s pc = some (s', pc')) (hp : pc.place = some (o, i)) :
    (∃ i', i ≤ i' ∧ pc'.place = some (o, i')) ∨ Ends s pc s' pc' := by
  have hstay : pc'.place = pc.place → (∃ i', i ≤ i' ∧ pc'.place = some (o, i')) ∨ Ends s pc s' pc' :=
    fun heq => .inl ⟨i, le_rfl, heq.trans hp⟩
  cases pc with
  | returned | hti | iterNext | count => cases hp
  | check who j =>
    simp only [resume] at hstep
    split at hstep
    · cases hstep
      exact hstay rfl
    · cases who with
      | none => cases hp
      | some a =>
        cases hstep
        exact hstay (start_place ..)
  | nextTable o' j =>
    cases hp
    simp only [resume, Option.ite_none_right_eq_some] at hstep
    obtain ⟨-, heq⟩ := hstep
    cases heq
    exact .inl ⟨i + 1, Nat.le_succ i, start_place ..⟩
  | unlinkNext | copyTo =>
    simp only [resume, Option.ite_none_right_eq_some] at hstep
    obtain ⟨-, heq⟩ := hstep
    cases heq
    exact hstay rfl
  | helpScan who j total =>
    simp only [resume] at hstep
    split_ifs at hstep <;> cases hstep
    · exact hstay (helped_place ..)
    · exact hstay (help_next_place ..)
    · exact hstay rfl
  | find f j e rest =>
    simp only [resume] at hstep
    split_ifs at hstep with hempty heq <;> cases hstep
    · rcases f with (a | ⟨k, iter⟩) | ⟨c, u, w⟩
      · simp only [Finder.empty] at hstay ⊢
        split_ifs at hstay ⊢ with hstop
        · exact .inr (.empty (.set a) j e rest hempty hstop)
        · exact hstay rfl
      · exact .inr (.empty (.get k iter) j e rest hempty trivial)
      · exact hstay rfl
    · exact hstay (found_place ..)
    · exact hstay (search_place ..)
  | growNext g j =>
    simp only [resume] at hstep
    split_ifs at hstep <;> cases hstep
    · exact hstay (grower_next_place ..)
    · exact hstay rfl
  | growStep g j m n =>
    simp only [resume] at hstep
    split_ifs at hstep <;> cases hstep <;> exact hstay rfl
  | key a j e w =>
    simp only [resume] at hstep
    split_ifs at hstep <;> cases hstep
    · exact hstay rfl
    · exact hstay (start_place ..)
  | val a j e =>
    simp only [resume] at hstep
    split_ifs at hstep with htag hdead hkeeps <;> cases hstep
    · exact hstay rfl
    · exact hstay rfl
    · exact .inr (.keeps a j e htag hkeeps)
    · exact hstay rfl
  | swap a j e v =>
    simp only [resume] at hstep
    split_ifs at hstep with hv hex
    · cases hstep
      refine .inr ?_
      have hend := Ends.swap (s := s) a j e v hv
      rwa [if_pos hex] at hend
    · cases hstep
      refine .inr ?_
      have hend := Ends.swap (s := s) a j e v hv
      rwa [if_neg hex] at hend
    · cases hstep
      exact hstay (start_place ..)
  | getNext k iter j =>
    simp only [resume] at hstep
    split_ifs at hstep with hnext <;> cases hstep
    · exact hstay rfl
    · exact .inr (.last k iter j hnext)
  | getVal k iter j e =>
    simp only [resume] at hstep
    split_ifs at hstep with htag hdead <;> cases hstep
    · exact hstay rfl
    · exact hstay rfl
    · exact .inr (.value k iter j e htag)
  | copyVal c j =>
    simp only [resume] at hstep
    split_ifs at hstep <;> cases hstep
    · exact hstay (copy_next_place ..)
    · exact hstay rfl
    · exact hstay rfl
  | copyKill c j =>
    simp only [resume] at hstep
    split_ifs at hstep <;> cases hstep
    · exact hstay (copy_next_place ..)
    · exact hstay rfl
  | copyTag c j =>
    simp only [resume] at hstep
    split_ifs at hstep <;> cases hstep
    · exact hstay (copy_next_place ..)
    · exact hstay (copy_next_place ..)
    · exact hstay rfl
  | copyKey c j u =>
    cases hstep
    exact hstay (search_place ..)
  | copyInstall c j u f w | copyPut c j u f =>
    simp only [resume] at hstep
    split_ifs at hstep <;> cases hstep <;> exact hstay rfl
  | copyStore c j did =>
    cases hstep
    cases did
    · exact hstay (copy_next_place ..)
    · exact hstay rfl
  | copyAdd c j =>
    cases hstep
    exact hstay (copy_next_place ..)
  | unlink a j =>
    cases hstep
    exact hstay (start_place ..)
  | helpStore who j total x =>
    cases hstep
    exact hstay (help_next_place ..)
  | helpAdd g j =>
    cases hstep
    exact hstay (helped_place ..)
  | growCas g j scale =>
    cases hstep
    exact hstay (grower_next_place ..)
  | helpTotal | growHti | growCount | growKeys | install | keyCount | addCopied | copyKeyCount
  | copySub =>
    cases hstep
    exact hstay rfl

/-- `ht->hti` goes on by one table at a time. -/
theorem hti_step (hstep : resume kt t s pc = some (s', pc')) :
    s'.ht.hti = s.ht.hti ∨ s'.ht.hti = s.ht.hti + 1 := by
  cases pc with
  | returned => cases hstep
  | unlink a j =>
    cases hstep
    split_ifs with hj
    · exact .inr (congrArg Nat.succ hj.symm)
    · exact .inl rfl
  | growCas g j scale =>
    cases hstep
    split_ifs <;> exact .inl rfl
  | hti b =>
    cases b <;> cases hstep <;> exact .inl rfl
  | check who j =>
    cases who <;> simp only [resume] at hstep <;> split_ifs at hstep <;> cases hstep <;> exact .inl rfl
  | copyStore c j did =>
    cases hstep
    exact .inl rfl
  | unlinkNext | iterNext | nextTable | copyTo =>
    simp only [resume, Option.ite_none_right_eq_some] at hstep
    obtain ⟨-, heq⟩ := hstep
    cases heq
    exact .inl rfl
  | helpScan | find | growNext | growStep | key | val | swap | getNext | getVal | copyVal | copyKill
  | copyTag | copyInstall | copyPut =>
    simp only [resume] at hstep
    split_ifs at hstep <;> cases hstep <;> exact .inl rfl
  | _ =>
    cases hstep
    exact .inl rfl

end Steps

end HashtableSteps
