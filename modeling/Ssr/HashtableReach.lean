/-
# Which tables and keys a thread of the hash table can come to

A thread comes to a table from one before it, or by loading `ht->hti`.  The keys of a `datatype_t`
go with the entries: a table has the pointers of the table before it for the keys that it has
got from there.

* `Pc.tables` — the tables of a thread; `tables_step`: a step leads to no table before them, other
  than `ht->hti`;
* `key_step`, `clone_step` — the two steps that put a key into a table, and the one that makes a
  clone;
* `Shares` — a pointer that is in two tables: the first of them has given the key to the next one;
* `shares_step` — what one step does to it.

An entry whose value was removed before it was copied has given nothing away, so that no table
behind it has its pointer.
-/
import Ssr.HashtableGuarantee

open Interleaving Map Migration Hashtable

namespace HashtableSteps

/-! ## Tables -/

/-- The tables of what calls `hti_lookup` in table `j`. -/
def Finder.tables (j : ℕ) : Finder → List ℕ
  | .op _ => [j]
  | .copy c _ _ => [c.i, j]

/-- The tables of what calls `hti_start_copy` in table `j`. -/
def Grower.tables (j : ℕ) : Grower → List ℕ
  | .set _ => [j]
  | .copy c => [c.i, j]

/-- The tables of a thread: it may use them without loading a pointer again. -/
def Pc.tables : Pc → List ℕ
  | .returned _ | .hti _ => []
  | .check _ i | .unlinkNext _ i | .unlink _ i | .iterNext i | .nextTable _ i | .helpTotal _ i
  | .helpScan _ i _ | .helpStore _ i _ _ | .helpAdd _ i | .install _ i _ | .key _ i _ _
  | .keyCount _ i _ | .val _ i _ | .swap _ i _ _ | .count _ i _ | .getNext _ _ i | .getVal _ _ i _
  | .addCopied _ i => [i]
  | .find f j _ _ => f.tables j
  | .growNext g j | .growHti g j | .growKeys g j _ | .growCas g j _ => g.tables j
  | .growCount g j m _ | .growStep g j m _ => m :: g.tables j
  | .copyTo c j | .copyVal c j | .copyKill c j | .copyTag c j | .copyKey c j _
  | .copyInstall c j _ _ _ | .copyKeyCount c j _ _ | .copyPut c j _ _ | .copyStore c j _
  | .copySub c j | .copyAdd c j => [c.i, j]

section Next

variable (kt : KeyType) (h : Ht) (o : Op) (f : Finder) (c : Copy) (g : Help) (who : Option Args)
  {i j m e : ℕ}

/-- The tables of a search. -/
@[simp] theorem search_tables (rest : List ℕ) : (f.search j rest).tables = f.tables j := by
  cases rest with
  | nil => rcases f with (a | key) | _ <;> rfl
  | cons e rest => rfl

/-- Those of an operation. -/
@[simp] theorem start_tables : (o.start kt h i).tables = [i] :=
  search_tables (.op o) _

/-- Those of a thread that has grown the chain. -/
@[simp] theorem grower_next_tables (g : Grower) : (g.next j).tables = g.tables j := by
  cases g <;> rfl

/-- Those of a search that is done. -/
@[simp] theorem found_tables : (f.found j e).tables = f.tables j := by
  rcases f with (a | key) | _ <;> rfl

/-- Those of a search that ends at an empty entry. -/
theorem empty_tables (hm : m ∈ (f.empty j e).tables) : m ∈ f.tables j := by
  rcases f with (a | key) | ⟨c, u, w⟩
  · simp only [Finder.empty] at hm
    split_ifs at hm
    · cases hm
    · exact hm
  · cases hm
  · exact hm

/-- Those of a helper that is done. -/
@[simp] theorem helped_tables (finished : Bool) : (helped kt h who i finished).tables = [i] := by
  cases who <;> cases finished <;> first | rfl | exact start_tables ..

/-- Those of a helper that goes on. -/
theorem help_next_tables (hm : m ∈ (g.next kt h i e).tables) : m = i := by
  unfold Help.next at hm
  cases hleft : g.left with
  | zero =>
    rw [hleft] at hm
    dsimp only at hm
    split at hm
    · rw [helped_tables] at hm
      exact List.mem_singleton.mp hm
    · exact List.mem_singleton.mp hm
  | succ n =>
    rw [hleft] at hm
    simpa [Pc.tables] using hm

/-- Those of a copy that is done. -/
theorem copy_next_tables {did : Bool} (hm : m ∈ (c.next kt h did).tables) : m = c.i := by
  unfold Copy.next at hm
  cases hsrc : c.src with
  | op o =>
    rw [hsrc] at hm
    cases did <;> exact List.mem_singleton.mp hm
  | help g =>
    rw [hsrc] at hm
    exact help_next_tables kt h _ hm

end Next

section Tables

variable {kt : KeyType} {t m : ℕ} {s s' : Shared} {pc pc' : Pc}

/-- `ht->hti` is loaded: the call begins at the first table. -/
theorem tables_hti {b : Begin} (hstep : resume kt t s (.hti b) = some (s', pc'))
    (hm : m ∈ pc'.tables) : (∃ l ∈ Pc.tables (.hti b), l ≤ m) ∨ s.ht.hti ≤ m := by
  cases b with
  | cas a | iter =>
    cases hstep
    exact .inr (List.mem_singleton.mp hm).ge
  | op o =>
    cases hstep
    rw [start_tables] at hm
    exact .inr (List.mem_singleton.mp hm).ge

/-- `hti->next` is loaded at the head of a call. -/
theorem tables_check {who : Option Args} {i : ℕ}
    (hstep : resume kt t s (.check who i) = some (s', pc')) (hm : m ∈ pc'.tables) :
    (∃ l ∈ Pc.tables (.check who i), l ≤ m) ∨ s.ht.hti ≤ m := by
  simp only [resume] at hstep
  split at hstep
  · cases hstep
    exact .inl ⟨_, hm, le_rfl⟩
  · cases who with
    | none =>
      cases hstep
      cases hm
    | some a =>
      cases hstep
      rw [start_tables] at hm
      exact .inl ⟨_, hm, le_rfl⟩

/-- The operation goes on in the next table. -/
theorem tables_nextTable {o : Op} {i : ℕ}
    (hstep : resume kt t s (.nextTable o i) = some (s', pc')) (hm : m ∈ pc'.tables) :
    (∃ l ∈ Pc.tables (.nextTable o i), l ≤ m) ∨ s.ht.hti ≤ m := by
  simp only [resume, Option.ite_none_right_eq_some] at hstep
  obtain ⟨-, heq⟩ := hstep
  cases heq
  rw [start_tables] at hm
  refine .inl ⟨_, List.mem_cons_self, ?_⟩
  rw [List.mem_singleton.mp hm]
  exact Nat.le_succ i

/-- `ht_iter_begin` goes on to the next table. -/
theorem tables_iterNext {i : ℕ} (hstep : resume kt t s (.iterNext i) = some (s', pc'))
    (hm : m ∈ pc'.tables) : (∃ l ∈ Pc.tables (.iterNext i), l ≤ m) ∨ s.ht.hti ≤ m := by
  simp only [resume, Option.ite_none_right_eq_some] at hstep
  obtain ⟨-, heq⟩ := hstep
  cases heq
  refine .inl ⟨_, List.mem_cons_self, ?_⟩
  rw [List.mem_singleton.mp hm]
  exact Nat.le_succ i

/-- The next table of the copy is loaded. -/
theorem tables_copyTo {c : Copy} {j : ℕ} (hstep : resume kt t s (.copyTo c j) = some (s', pc'))
    (hm : m ∈ pc'.tables) : (∃ l ∈ Pc.tables (.copyTo c j), l ≤ m) ∨ s.ht.hti ≤ m := by
  simp only [resume, Option.ite_none_right_eq_some] at hstep
  obtain ⟨-, heq⟩ := hstep
  cases heq
  rcases List.mem_pair.mp hm with rfl | rfl
  · exact .inl ⟨_, List.mem_cons_self, le_rfl⟩
  · exact .inl ⟨j, by simp [Pc.tables], Nat.le_succ j⟩

/-- `hti->copy_scan` is loaded, and a stride of entries taken or not. -/
theorem tables_helpScan {who : Option Args} {i total : ℕ}
    (hstep : resume kt t s (.helpScan who i total) = some (s', pc')) (hm : m ∈ pc'.tables) :
    (∃ l ∈ Pc.tables (.helpScan who i total), l ≤ m) ∨ s.ht.hti ≤ m := by
  simp only [resume] at hstep
  split_ifs at hstep <;> cases hstep
  · rw [helped_tables] at hm
    exact .inl ⟨_, hm, le_rfl⟩
  · exact .inl ⟨_, List.mem_cons_self, (help_next_tables _ _ _ hm).ge⟩
  · exact .inl ⟨_, hm, le_rfl⟩

/-- `hti_lookup` looks at an entry. -/
theorem tables_find {f : Finder} {j e : ℕ} {rest : List ℕ}
    (hstep : resume kt t s (.find f j e rest) = some (s', pc')) (hm : m ∈ pc'.tables) :
    (∃ l ∈ Pc.tables (.find f j e rest), l ≤ m) ∨ s.ht.hti ≤ m := by
  simp only [resume] at hstep
  split_ifs at hstep <;> cases hstep
  · exact .inl ⟨_, (empty_tables f hm), le_rfl⟩
  · rw [found_tables] at hm
    exact .inl ⟨_, hm, le_rfl⟩
  · rw [search_tables] at hm
    exact .inl ⟨_, hm, le_rfl⟩

/-- `hti_start_copy` looks whether there is a next table. -/
theorem tables_growNext {g : Grower} {j : ℕ}
    (hstep : resume kt t s (.growNext g j) = some (s', pc')) (hm : m ∈ pc'.tables) :
    (∃ l ∈ Pc.tables (.growNext g j), l ≤ m) ∨ s.ht.hti ≤ m := by
  simp only [resume] at hstep
  split_ifs at hstep <;> cases hstep
  · rw [grower_next_tables] at hm
    exact .inl ⟨_, hm, le_rfl⟩
  · exact .inl ⟨_, hm, le_rfl⟩

/-- `ht_count` goes on to the next table. -/
theorem tables_growStep {g : Grower} {j n count : ℕ}
    (hstep : resume kt t s (.growStep g j n count) = some (s', pc')) (hm : m ∈ pc'.tables) :
    (∃ l ∈ Pc.tables (.growStep g j n count), l ≤ m) ∨ s.ht.hti ≤ m := by
  simp only [resume] at hstep
  split_ifs at hstep <;> cases hstep
  · rcases List.mem_cons.mp hm with rfl | hm
    · exact .inl ⟨_, List.mem_cons_self, (Nat.le_succ n)⟩
    · exact .inl ⟨_, (List.mem_cons_of_mem n hm), le_rfl⟩
  · exact .inl ⟨_, (List.mem_cons_of_mem n hm), le_rfl⟩

/-- The CAS on the key of an entry. -/
theorem tables_key {a : Args} {i e w : ℕ} (hstep : resume kt t s (.key a i e w) = some (s', pc'))
    (hm : m ∈ pc'.tables) : (∃ l ∈ Pc.tables (.key a i e w), l ≤ m) ∨ s.ht.hti ≤ m := by
  simp only [resume] at hstep
  split_ifs at hstep <;> cases hstep
  · exact .inl ⟨_, hm, le_rfl⟩
  · rw [start_tables] at hm
    exact .inl ⟨_, hm, le_rfl⟩

/-- The value of the entry is loaded. -/
theorem tables_val {a : Args} {i e : ℕ} (hstep : resume kt t s (.val a i e) = some (s', pc'))
    (hm : m ∈ pc'.tables) : (∃ l ∈ Pc.tables (.val a i e), l ≤ m) ∨ s.ht.hti ≤ m := by
  simp only [resume] at hstep
  split_ifs at hstep <;> cases hstep
  · exact .inl ⟨_, hm, le_rfl⟩
  · rcases List.mem_pair.mp hm with rfl | rfl <;> exact .inl ⟨_, List.mem_cons_self, le_rfl⟩
  · cases hm
  · exact .inl ⟨_, hm, le_rfl⟩

/-- `hti_get` loads the value. -/
theorem tables_getVal {key : ℕ} {iter : Bool} {i e : ℕ}
    (hstep : resume kt t s (.getVal key iter i e) = some (s', pc')) (hm : m ∈ pc'.tables) :
    (∃ l ∈ Pc.tables (.getVal key iter i e), l ≤ m) ∨ s.ht.hti ≤ m := by
  simp only [resume] at hstep
  split_ifs at hstep <;> cases hstep
  · exact .inl ⟨_, hm, le_rfl⟩
  · rcases List.mem_pair.mp hm with rfl | rfl <;> exact .inl ⟨_, List.mem_cons_self, le_rfl⟩
  · cases hm

/-- The CAS on the value. -/
theorem tables_swap {a : Args} {i e v : ℕ}
    (hstep : resume kt t s (.swap a i e v) = some (s', pc')) (hm : m ∈ pc'.tables) :
    (∃ l ∈ Pc.tables (.swap a i e v), l ≤ m) ∨ s.ht.hti ≤ m := by
  simp only [resume] at hstep
  split_ifs at hstep <;> cases hstep
  · cases hm
  · exact .inl ⟨_, hm, le_rfl⟩
  · rw [start_tables] at hm
    exact .inl ⟨_, hm, le_rfl⟩

/-- **A step leads to no table before those of the thread**, other than `ht->hti`. -/
theorem tables_step (hstep : resume kt t s pc = some (s', pc')) (hm : m ∈ pc'.tables) :
    (∃ i ∈ pc.tables, i ≤ m) ∨ s.ht.hti ≤ m := by
  cases pc with
  | returned => cases hstep
  | hti b => exact tables_hti hstep hm
  | check who i => exact tables_check hstep hm
  | nextTable o i => exact tables_nextTable hstep hm
  | iterNext i => exact tables_iterNext hstep hm
  | copyTo c j => exact tables_copyTo hstep hm
  | unlinkNext a i =>
    simp only [resume, Option.ite_none_right_eq_some] at hstep
    obtain ⟨-, heq⟩ := hstep
    cases heq
    exact .inl ⟨_, hm, le_rfl⟩
  | unlink a i =>
    cases hstep
    rw [start_tables] at hm
    exact .inl ⟨_, hm, le_rfl⟩
  | helpScan who i total => exact tables_helpScan hstep hm
  | helpStore who i total x =>
    cases hstep
    exact .inl ⟨_, List.mem_cons_self, (help_next_tables _ _ _ hm).ge⟩
  | helpAdd g i =>
    cases hstep
    rw [helped_tables] at hm
    exact .inl ⟨_, hm, le_rfl⟩
  | find f j e rest => exact tables_find hstep hm
  | growNext g j => exact tables_growNext hstep hm
  | growHti g j =>
    cases hstep
    rcases List.mem_cons.mp hm with rfl | hm
    · exact .inr le_rfl
    · exact .inl ⟨_, hm, le_rfl⟩
  | growStep g j n count => exact tables_growStep hstep hm
  | growCas g j scale =>
    cases hstep
    rw [grower_next_tables] at hm
    exact .inl ⟨_, hm, le_rfl⟩
  | key a i e w => exact tables_key hstep hm
  | val a i e => exact tables_val hstep hm
  | getVal key iter i e => exact tables_getVal hstep hm
  | swap a i e v => exact tables_swap hstep hm
  | getNext key iter i =>
    simp only [resume] at hstep
    split_ifs at hstep <;> cases hstep
    · exact .inl ⟨_, hm, le_rfl⟩
    · cases hm
  | copyVal c j | copyKill c j | copyTag c j =>
    simp only [resume] at hstep
    split_ifs at hstep <;> cases hstep
    all_goals first
      | exact .inl ⟨_, hm, le_rfl⟩
      | exact .inl ⟨_, List.mem_cons_self, (copy_next_tables _ _ _ hm).ge⟩
  | copyKey c j u =>
    cases hstep
    rw [search_tables] at hm
    exact .inl ⟨_, hm, le_rfl⟩
  | copyInstall c j u f w | copyPut c j u f =>
    simp only [resume] at hstep
    split_ifs at hstep <;> cases hstep <;> exact .inl ⟨_, hm, le_rfl⟩
  | copyStore c j did =>
    cases hstep
    cases did
    · exact .inl ⟨_, List.mem_cons_self, (copy_next_tables _ _ _ hm).ge⟩
    · exact .inl ⟨_, hm, le_rfl⟩
  | copyAdd c j =>
    cases hstep
    exact .inl ⟨_, List.mem_cons_self, (copy_next_tables _ _ _ hm).ge⟩
  | count a i v =>
    cases hstep
    cases hm
  | helpTotal | growCount | growKeys | install | keyCount | addCopied | copyKeyCount | copySub =>
    cases hstep
    exact .inl ⟨_, hm, le_rfl⟩

/-- A call begins without a table. -/
theorem invoke_tables {cmd : Cmd} (hnext : ∀ key i, cmd ≠ .next key i)
    (h : invoke pc cmd = some pc') : pc'.tables = [] := by
  cases pc with
  | returned r =>
    cases cmd with
    | next key i => exact absurd rfl (hnext key i)
    | cas | remove =>
      simp only [invoke, Option.ite_none_right_eq_some, Option.some.injEq] at h
      obtain ⟨-, rfl⟩ := h
      rfl
    | get | iter =>
      cases h
      rfl
    | resume => cases h
  | _ => cases cmd <;> cases h

end Tables

/-! ## Keys -/

end HashtableSteps

namespace Hashtable

/-- The pointer of a key word. -/
def KeyType.keyPtr : KeyType → ℕ → Option ℕ
  | integer _, _ => none
  | typed _, w => if w = doesNotExist then none else some (getPtr w)

/-- Entry `e` of table `i` has the pointer `p`. -/
def Ht.HasPtr (kt : KeyType) (h : Ht) (p i e : ℕ) : Prop := kt.keyPtr (h.key i e) = some p

/-- A pointer that is in two tables: the first of them is giving the key away, or has done it,
and no table between them has an empty entry for the key. -/
structure Shares (kt : KeyType) (h : Ht) : Prop where
  given : ∀ p i e j f, i < j → j < h.len → h.HasPtr kt p i e → h.HasPtr kt p j f →
    IsTagged (h.val i e) ∧ h.val i e ≠ tagValue tombstone
  between : ∀ p i e j f, i < j → j < h.len → h.HasPtr kt p i e → h.HasPtr kt p j f →
    ∀ m, i < m → m < j → h.cell kt p m = .full ∨ (h.cell kt p m).Installed

section Keys

variable {kt : KeyType} {h h' : Ht} {p i j e f m w : ℕ}

/-- A key word with a pointer. -/
theorem KeyType.keyOf_of_keyPtr (hw : kt.keyPtr w = some p) : w ≠ doesNotExist ∧ kt.keyOf w = p := by
  cases kt with
  | integer f => cases hw
  | typed d =>
    simp only [keyPtr, Option.ite_none_left_eq_some, Option.some.injEq] at hw
    exact hw

/-- An entry with a pointer has a key. -/
theorem Ht.HasPtr.key_ne (hp : h.HasPtr kt p i e) : h.key i e ≠ doesNotExist :=
  (KeyType.keyOf_of_keyPtr hp).1

/-- Its key is the pointer. -/
theorem Ht.HasPtr.keyOf (hp : h.HasPtr kt p i e) : kt.keyOf (h.key i e) = p :=
  (KeyType.keyOf_of_keyPtr hp).2

/-- The entry of a pointer is that of its key. -/
theorem Ht.HasPtr.find (hkt : kt.Lawful) {b : ℕ} (hi : Inv kt h b) (hlt : i < h.len)
    (hp : h.HasPtr kt p i e) : h.find kt p i = some e := by
  rw [hi.find_iff hkt hlt hp.key_ne, hp.keyOf]
  exact KeyType.Same.refl hkt p

/-- It is in the column of its key. -/
theorem Ht.HasPtr.cell (hkt : kt.Lawful) {b : ℕ} (hi : Inv kt h b) (hlt : i < h.len)
    (hp : h.HasPtr kt p i e) : h.cell kt p i = cellOf (h.val i e) :=
  Ht.cell_of_key (hp.find hkt hi hlt) hp.key_ne

/-- A pointer is in one entry of a table. -/
theorem Ht.HasPtr.unique (hkt : kt.Lawful) {b : ℕ} (hi : Inv kt h b) (hlt : i < h.len)
    (he : h.HasPtr kt p i e) (hf : h.HasPtr kt p i f) : e = f :=
  Option.some.inj ((he.find hkt hi hlt).symm.trans (hf.find hkt hi hlt))

/-- A pointer stays where it is. -/
theorem Ht.HasPtr.grows (hg : Grows kt h h') (hlt : i < h.len) (hp : h.HasPtr kt p i e) :
    h'.HasPtr kt p i e := by
  rw [Ht.HasPtr, hg.key i e hlt hp.key_ne]
  exact hp

/-- A table without an empty entry for a key does not get one. -/
theorem Grows.full_or_installed (hg : Grows kt h h') (hm : m < h.len)
    (hc : h.cell kt p m = .full ∨ (h.cell kt p m).Installed) :
    h'.cell kt p m = .full ∨ (h'.cell kt p m).Installed := by
  cases hf : h.find kt p m with
  | none => exact .inl (Ht.cell_of_none (hg.find_none hm hf))
  | some e =>
    by_cases hkey : h.key m e = doesNotExist
    · rw [Ht.cell_of_empty hf hkey] at hc
      rcases hc with hc | hc
      · cases hc
      · exact hc.elim
    · rw [Ht.cell_of_key (hg.find_some hm hf hkey) (hg.key_ne hm hkey)]
      exact .inr (cellOf_installed _)

/-- A key that was given on stays so. -/
theorem given_grows (hg : Grows kt h h') (hlt : i < h.len)
    (hv : IsTagged (h.val i e) ∧ h.val i e ≠ tagValue tombstone) :
    IsTagged (h'.val i e) ∧ h'.val i e ≠ tagValue tombstone := by
  refine ⟨hg.isTagged hlt hv.1, ?_⟩
  rcases hg.tagged i e hlt hv.1 with heq | ⟨heq, -⟩
  · rw [heq]
    exact hv.2
  · rw [heq]
    decide

/-- A step that puts no key into a table. -/
theorem Shares.same (hs : Shares kt h) (hg : Grows kt h h')
    (hkeys : ∀ p j f, j < h'.len → h'.HasPtr kt p j f → j < h.len ∧ h.HasPtr kt p j f) :
    Shares kt h' where
  given := by
    intro p i e j f hij hj he hf
    obtain ⟨hjl, hf'⟩ := hkeys p j f hj hf
    obtain ⟨hil, he'⟩ := hkeys p i e (hij.trans hj) he
    exact given_grows hg hil (hs.given p i e j f hij hjl he' hf')
  between := by
    intro p i e j f hij hj he hf m him hmj
    obtain ⟨hjl, hf'⟩ := hkeys p j f hj hf
    obtain ⟨-, he'⟩ := hkeys p i e (hij.trans hj) he
    exact hg.full_or_installed (hmj.trans hjl) (hs.between p i e j f hij hjl he' hf' m him hmj)

/-- A key comes into entry `f` of table `j`: the tables before that have its pointer have given
the key away, and no table behind has it. -/
theorem Shares.setKey (hs : Shares kt h) (hg : Grows kt h (h.setKey j f w)) (hj : j < h.len)
    (hbefore : ∀ p i e, kt.keyPtr w = some p → i < j → h.HasPtr kt p i e →
      (IsTagged (h.val i e) ∧ h.val i e ≠ tagValue tombstone)
        ∧ ∀ m, i < m → m < j → h.cell kt p m = .full ∨ (h.cell kt p m).Installed)
    (hbehind : ∀ p i e, kt.keyPtr w = some p → j < i → i < h.len → ¬ h.HasPtr kt p i e) :
    Shares kt (h.setKey j f w) := by
  have hold : ∀ p i e, (h.setKey j f w).HasPtr kt p i e →
      (i = j ∧ e = f ∧ kt.keyPtr w = some p) ∨ h.HasPtr kt p i e := by
    intro p i e hp
    by_cases hie : i = j ∧ e = f
    · obtain ⟨rfl, rfl⟩ := hie
      rw [Ht.HasPtr, Ht.setKey_key_self] at hp
      exact .inl ⟨rfl, rfl, hp⟩
    · rw [Ht.HasPtr, Ht.setKey_key_of_ne w hie] at hp
      exact .inr hp
  -- two tables with the pointer had it before, or the second has got it now
  have hpair : ∀ p i e i' e', i < i' → i' < h.len → (h.setKey j f w).HasPtr kt p i e →
      (h.setKey j f w).HasPtr kt p i' e' →
      (IsTagged (h.val i e) ∧ h.val i e ≠ tagValue tombstone)
        ∧ ∀ m, i < m → m < i' → h.cell kt p m = .full ∨ (h.cell kt p m).Installed := by
    intro p i e i' e' hii hi' he he'
    rcases hold p i' e' he' with ⟨rfl, rfl, hw⟩ | hp'
    · rcases hold p i e he with ⟨rfl, -, -⟩ | hp
      · exact absurd hii (lt_irrefl _)
      · exact hbefore p i e hw hii hp
    · rcases hold p i e he with ⟨rfl, rfl, hw⟩ | hp
      · exact absurd hp' (hbehind p i' e' hw hii hi')
      · exact ⟨hs.given p i e i' e' hii hi' hp hp', hs.between p i e i' e' hii hi' hp hp'⟩
  refine ⟨fun p i e i' e' hii hi' he he' => ?_, fun p i e i' e' hii hi' he he' m him hmi => ?_⟩
  · exact given_grows hg (hii.trans hi') (hpair p i e i' e' hii hi' he he').1
  · exact hg.full_or_installed (hmi.trans hi') ((hpair p i e i' e' hii hi' he he').2 m him hmi)

end Keys

end Hashtable

namespace HashtableSteps

section Steps

variable {kt : KeyType} {t : ℕ} {s s' : Shared} {pc pc' : Pc} {cmd : Cmd}

/-- **Two steps put a key into a table**, each into an empty entry: that of `hti_cas` with its
clone, and that of `hti_copy_entry` with the key of the entry that it copies. -/
theorem key_step (hstep : step kt t s pc cmd = some (s', pc')) :
    (∀ j f, j < s'.ht.len → s'.ht.key j f ≠ doesNotExist →
        j < s.ht.len ∧ s'.ht.key j f = s.ht.key j f)
      ∨ (∃ a i e w, pc = .key a i e w ∧ s.ht.key i e = doesNotExist
        ∧ s'.ht = s.ht.setKey i e w)
      ∨ ∃ c j u f w, pc = .copyInstall c j u f w ∧ s.ht.key j f = doesNotExist
        ∧ s'.ht = s.ht.setKey j f w := by
  have hstill : s' = s → ∀ j f, j < s'.ht.len → s'.ht.key j f ≠ doesNotExist →
      j < s.ht.len ∧ s'.ht.key j f = s.ht.key j f := by
    rintro rfl j f hj -
    exact ⟨hj, rfl⟩
  have hentries : SameEntries s.ht s'.ht → ∀ j f, j < s'.ht.len → s'.ht.key j f ≠ doesNotExist →
      j < s.ht.len ∧ s'.ht.key j f = s.ht.key j f :=
    fun h j f hj _ => ⟨h.len ▸ hj, h.key_eq⟩
  have hval : ∀ i e v, s'.ht = s.ht.setVal i e v → ∀ j f, j < s'.ht.len →
      s'.ht.key j f ≠ doesNotExist → j < s.ht.len ∧ s'.ht.key j f = s.ht.key j f := by
    intro i e v heq j f hj _
    rw [heq] at hj ⊢
    exact ⟨hj, Ht.setVal_key v⟩
  by_cases hc : cmd = .resume
  · subst hc
    change resume kt t s pc = some (s', pc') at hstep
    cases pc with
    | returned => cases hstep
    | key a i e w =>
      simp only [resume] at hstep
      split_ifs at hstep with hkey <;> cases hstep
      · exact .inr (.inl ⟨a, i, e, w, rfl, hkey, rfl⟩)
      · exact .inl (hstill rfl)
    | copyInstall c j u f w =>
      simp only [resume] at hstep
      split_ifs at hstep with hkey <;> cases hstep
      · exact .inr (.inr ⟨c, j, u, f, w, rfl, hkey, rfl⟩)
      · exact .inl (hstill rfl)
    | growCas g j scale =>
      cases hstep
      refine .inl ?_
      split_ifs
      · exact fun j f hj _ => ⟨hj, rfl⟩
      · intro m f hm hne
        have hml : m ≠ s.ht.len := by
          rintro rfl
          exact hne (Ht.append_alloc_key scale)
        have hlt : m < s.ht.len + 1 := hm
        exact ⟨by omega, Ht.append_key _ hml⟩
    | unlink a i =>
      cases hstep
      refine .inl ?_
      split_ifs <;> exact fun j f hj _ => ⟨hj, rfl⟩
    | hti b =>
      cases b <;> cases hstep <;> exact .inl (hstill rfl)
    | check who i =>
      cases who <;> simp only [resume] at hstep <;> split_ifs at hstep <;> cases hstep <;>
        exact .inl (hstill rfl)
    | unlinkNext | iterNext | nextTable | copyTo =>
      simp only [resume, Option.ite_none_right_eq_some] at hstep
      obtain ⟨-, heq⟩ := hstep
      cases heq
      exact .inl (hstill rfl)
    | helpScan | find | growNext | growStep | val | getNext | getVal | copyVal =>
      simp only [resume] at hstep
      split_ifs at hstep <;> cases hstep <;> exact .inl (hstill rfl)
    | helpTotal | growHti | growCount | growKeys | copyKey =>
      cases hstep
      exact .inl (hstill rfl)
    | helpStore who i total x =>
      cases hstep
      exact .inl (hentries (setCopyScan_entries _ _ _))
    | helpAdd | addCopied =>
      cases hstep
      exact .inl (hentries (addCopied_entries _ _ _))
    | install a i e =>
      cases hstep
      exact .inl fun j f hj _ => ⟨hj, rfl⟩
    | keyCount | copyKeyCount =>
      cases hstep
      exact .inl (hentries (addKeyCount_entries _ _))
    | count | copySub | copyAdd =>
      cases hstep
      exact .inl (hentries (addCount_entries _ _ _))
    | swap a i e v =>
      simp only [resume] at hstep
      split_ifs at hstep <;> cases hstep
      · exact .inl (hval i e _ rfl)
      · exact .inl (hval i e _ rfl)
      · exact .inl (hstill rfl)
    | copyKill c j | copyTag c j =>
      simp only [resume] at hstep
      split_ifs at hstep <;> cases hstep
      all_goals first
        | exact .inl (hstill rfl)
        | exact .inl (hval c.i c.e _ rfl)
    | copyPut c j u f =>
      simp only [resume] at hstep
      split_ifs at hstep <;> cases hstep
      · exact .inl (hval j f _ rfl)
      · exact .inl (hstill rfl)
      · exact .inl (hstill rfl)
    | copyStore c j did =>
      cases hstep
      exact .inl (hval c.i c.e _ rfl)
  · have hinv : (invoke pc cmd).map (fun pc' => (s, pc')) = some (s', pc') := by
      rw [← hstep]
      cases cmd <;> first | rfl | exact absurd rfl hc
    obtain ⟨_, -, heq⟩ := Option.map_eq_some_iff.mp hinv
    cases heq
    exact .inl (hstill rfl)

/-- The clone that a thread is about to put into a table. -/
def Pc.clone : Pc → Option ℕ
  | .key _ _ _ w => some w
  | _ => none

section Clones

variable (h : Ht) (o : Op) (f : Finder) (c : Copy) (g : Help) (i j e : ℕ)

/-- A search has no clone. -/
@[simp] theorem search_clone (rest : List ℕ) : (f.search j rest).clone = none := by
  cases rest with
  | nil => rcases f with (a | key) | _ <;> rfl
  | cons e rest => rfl

/-- Nor has an operation that begins. -/
@[simp] theorem start_clone : (o.start kt h i).clone = none :=
  search_clone (.op o) i _

/-- Nor has a thread that has grown the chain. -/
@[simp] theorem grower_next_clone (g : Grower) : (g.next j).clone = none := by
  cases g <;> rfl

/-- Nor has a search that is done. -/
@[simp] theorem found_clone : (f.found j e).clone = none := by
  rcases f with (a | key) | _ <;> rfl

/-- Nor has one that ends at an empty entry. -/
@[simp] theorem empty_clone : (f.empty j e).clone = none := by
  rcases f with (a | key) | _
  · simp only [Finder.empty]
    split_ifs <;> rfl
  · rfl
  · rfl

/-- Nor has a helper that is done. -/
@[simp] theorem helped_clone (who : Option Args) (finished : Bool) :
    (helped kt h who i finished).clone = none := by
  cases who <;> cases finished <;> first | rfl | exact start_clone ..

/-- Nor has one that goes on. -/
@[simp] theorem help_next_clone : (g.next kt h i e).clone = none := by
  unfold Help.next
  cases g.left with
  | zero =>
    dsimp only
    split_ifs
    · exact helped_clone ..
    · rfl
  | succ n => rfl

/-- Nor has a copy that is done. -/
@[simp] theorem copy_next_clone (did : Bool) : (c.next kt h did).clone = none := by
  unfold Copy.next
  cases c.src with
  | op o => cases did <;> rfl
  | help g => exact help_next_clone ..

end Clones

/-- One step makes a clone. -/
theorem clone_step (hstep : step kt t s pc cmd = some (s', pc')) :
    (s'.ht.clones = s.ht.clones ∧ pc'.clone = none)
      ∨ ∃ a i e, pc = .install a i e ∧ s' = { s with ht := s.ht.cloned }
        ∧ pc' = .key a i e (kt.newKey s.ht.clones a.key (kt.hash a.key)) := by
  by_cases hc : cmd = .resume
  · subst hc
    change resume kt t s pc = some (s', pc') at hstep
    cases pc with
    | returned => cases hstep
    | install a i e =>
      cases hstep
      exact .inr ⟨a, i, e, rfl, rfl, rfl⟩
    | growCas g j scale =>
      cases hstep
      refine .inl ⟨?_, grower_next_clone ..⟩
      split_ifs <;> rfl
    | unlink a i =>
      cases hstep
      refine .inl ⟨?_, start_clone ..⟩
      split_ifs <;> rfl
    | hti b =>
      cases b <;> cases hstep <;> first | exact .inl ⟨rfl, rfl⟩ | exact .inl ⟨rfl, start_clone ..⟩
    | check who i =>
      cases who <;> simp only [resume] at hstep <;> split_ifs at hstep <;> cases hstep <;>
        first | exact .inl ⟨rfl, rfl⟩ | exact .inl ⟨rfl, start_clone ..⟩
    | unlinkNext | iterNext | copyTo | nextTable =>
      simp only [resume, Option.ite_none_right_eq_some] at hstep
      obtain ⟨-, heq⟩ := hstep
      cases heq
      first | exact .inl ⟨rfl, rfl⟩ | exact .inl ⟨rfl, start_clone ..⟩
    | find f j e rest =>
      simp only [resume] at hstep
      split_ifs at hstep <;> cases hstep
      · exact .inl ⟨rfl, empty_clone ..⟩
      · exact .inl ⟨rfl, found_clone ..⟩
      · exact .inl ⟨rfl, search_clone ..⟩
    | helpScan who i total =>
      simp only [resume] at hstep
      split_ifs at hstep <;> cases hstep
      · exact .inl ⟨rfl, helped_clone ..⟩
      · exact .inl ⟨rfl, help_next_clone ..⟩
      · exact .inl ⟨rfl, rfl⟩
    | growNext g j =>
      simp only [resume] at hstep
      split_ifs at hstep <;> cases hstep
      · exact .inl ⟨rfl, grower_next_clone ..⟩
      · exact .inl ⟨rfl, rfl⟩
    | key | swap =>
      simp only [resume] at hstep
      split_ifs at hstep <;> cases hstep <;>
        first | exact .inl ⟨rfl, rfl⟩ | exact .inl ⟨rfl, start_clone ..⟩
    | growStep | val | getNext | getVal | copyInstall | copyPut =>
      simp only [resume] at hstep
      split_ifs at hstep <;> cases hstep <;> exact .inl ⟨rfl, rfl⟩
    | copyVal | copyKill | copyTag =>
      simp only [resume] at hstep
      split_ifs at hstep <;> cases hstep <;>
        first | exact .inl ⟨rfl, rfl⟩ | exact .inl ⟨rfl, copy_next_clone ..⟩
    | copyKey =>
      cases hstep
      exact .inl ⟨rfl, search_clone ..⟩
    | helpStore =>
      cases hstep
      exact .inl ⟨rfl, help_next_clone ..⟩
    | helpAdd =>
      cases hstep
      exact .inl ⟨rfl, helped_clone ..⟩
    | copyStore c j did =>
      cases hstep
      cases did
      · exact .inl ⟨rfl, copy_next_clone ..⟩
      · exact .inl ⟨rfl, rfl⟩
    | copyAdd =>
      cases hstep
      exact .inl ⟨rfl, copy_next_clone ..⟩
    | helpTotal | growHti | growCount | growKeys | keyCount | addCopied | count | copyKeyCount
    | copySub =>
      cases hstep
      exact .inl ⟨rfl, rfl⟩
  · have hinv : (invoke pc cmd).map (fun pc' => (s, pc')) = some (s', pc') := by
      rw [← hstep]
      cases cmd <;> first | rfl | exact absurd rfl hc
    obtain ⟨next, hnext, heq⟩ := Option.map_eq_some_iff.mp hinv
    cases heq
    refine .inl ⟨rfl, ?_⟩
    cases pc <;> cases cmd <;> simp only [invoke, Option.ite_none_right_eq_some, reduceCtorEq,
      Option.some.injEq] at hnext <;> first
      | subst hnext; rfl
      | obtain ⟨-, rfl⟩ := hnext; rfl

/-- **A pointer goes on to the tables behind**, and is left by the entry that gives it away. -/
theorem shares_step (hkt : kt.Lawful) (hi : s.Inv kt) (hl : Loc kt t s pc) (hs : Shares kt s.ht)
    (hnew : ∀ w p j f, pc.clone = some w → kt.keyPtr w = some p → j < s.ht.len →
      ¬ s.ht.HasPtr kt p j f)
    (hstep : step kt t s pc cmd = some (s', pc')) : Shares kt s'.ht := by
  have hg : Grows kt s.ht s'.ht := ((step_ok hkt hi hl hstep).rely (t + 1) (Nat.succ_ne_self t)).grows
  rcases key_step hstep with hsame | ⟨a, i, e, w, rfl, hkey, heq⟩ | ⟨c, j, u, f, w, rfl, hkey, heq⟩
  · refine hs.same hg fun p j f hj hp => ?_
    obtain ⟨hjl, heq⟩ := hsame j f hj hp.key_ne
    rw [Ht.HasPtr, heq] at hp
    exact ⟨hjl, hp⟩
  · rw [heq] at hg ⊢
    have hlt : i < s.ht.len := hl.knows.1.lt
    exact hs.setKey hg hlt
      (fun p j f hw hj hp => absurd hp (hnew w p j f rfl hw (hj.trans hlt)))
      fun p j f hw _ hj => hnew w p j f rfl hw hj
  · rw [heq] at hg ⊢
    obtain ⟨hc, hw, rest, hfind⟩ : Carries kt s.ht c j u ∧ w = s.ht.key c.i c.e
      ∧ ∃ rest, Finding kt s.ht (kt.keyOf w) j (f :: rest) := hl.knows
    have hci : c.i < s.ht.len := Nat.lt_of_succ_lt hc.next
    -- the key comes from the entry that is copied, and the table has an empty entry for it
    have hsrc : ∀ p, kt.keyPtr w = some p → s.ht.HasPtr kt p c.i c.e := by
      intro p hp
      rw [hw] at hp
      exact hp
    have hempty : ∀ p, kt.keyPtr w = some p →
        ¬ (s.ht.cell kt p j = .full ∨ (s.ht.cell kt p j).Installed) := by
      intro p hp hcell
      have hf : s.ht.find kt p j = some f := by
        rw [← (KeyType.keyOf_of_keyPtr hp).2]
        exact Finding.empty hfind hkey
      rw [Ht.cell_of_empty hf hkey] at hcell
      rcases hcell with hcell | hcell
      · cases hcell
      · exact hcell.elim
    have hmid : ∀ p, kt.keyPtr w = some p → ∀ m, c.i < m → m < j →
        (s.ht.cell kt p m).Skipped := by
      intro p hp m hcm hmj
      have hskip := (hc.skips m hcm hmj).2
      rwa [← hw, (KeyType.keyOf_of_keyPtr hp).2] at hskip
    have hskipped : ∀ {x : Cell ℕ}, x.Skipped → x = .full ∨ x.Installed := by
      intro x hx
      cases x <;> first | exact hx.elim | exact .inl rfl | exact .inr trivial
    refine hs.setKey hg hc.lt_len (fun p i e hp hij he => ?_) fun p i e hp hji hil he => ?_
    · have hce := hsrc p hp
      rcases lt_trichotomy i c.i with hlt | rfl | hlt
      · refine ⟨hs.given p i e c.i c.e hlt hci he hce, fun m him hmj => ?_⟩
        rcases lt_trichotomy m c.i with hmc | rfl | hcm
        · exact hs.between p i e c.i c.e hlt hci he hce m him hmc
        · rw [hce.cell hkt hi.chain hci]
          exact .inr (cellOf_installed _)
        · exact hskipped (hmid p hp m hcm hmj)
      · rw [he.unique hkt hi.chain hci hce]
        refine ⟨?_, fun m him hmj => hskipped (hmid p hp m him hmj)⟩
        rcases hc.source with hv | ⟨hv, -⟩
        · rw [hv]
          exact ⟨isTagged_tagValue u, fun hu => hc.legal.tagValue_not_dead (.inr hu)⟩
        · rw [hv]
          decide
      · have hil : i < s.ht.len := hij.trans hc.lt_len
        have hskip := hmid p hp i hlt hij
        rw [he.cell hkt hi.chain hil, cellOf_skipped_iff] at hskip
        rw [hskip]
        exact ⟨by decide, fun m him hmj => hskipped (hmid p hp m (hlt.trans him) hmj)⟩
    · exact hempty p hp (hs.between p c.i c.e i e (hc.lt.trans hji) hil (hsrc p hp) he j hc.lt hji)

end Steps

end HashtableSteps
