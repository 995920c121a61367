/-
# The calls of the hash table (`src/map/hashtable.c`) by a single thread

`ht_cas`, `ht_get`, `ht_remove` and `ht_count`, with the functions that they call, for one
thread: nobody else changes anything between two accesses, so every `SYNC_CAS` finds what
was read before it.

* The recursive functions and the loop of `ht_cas` and `ht_remove` run on fuel, one unit
  for every table they go to; a call that runs out of it returns nothing.
* Releasing a table that is no longer used is left out: no call reads it again.
-/
import Ssr.Hashtable

open Map

namespace Hashtable

/-! ## Copying -/

/-- `ht_count`. -/
def htCount (s : Ht) : ℕ :=
  (List.range' s.hti (s.len - s.hti)).foldl (fun n i => (n + (s.tables i).count) % 2 ^ 64) 0

/-- `hti_start_copy`. -/
def htiStartCopy (s : Ht) (i : ℕ) : Ht :=
  if i + 1 < s.len then s
  else
    s.append (htiAlloc (newScale (s.tables i).scale (htCount s) (s.tables i).keyCount))

/-- `hti_copy_entry` installs the key `w` in entry `f` of table `j`, if that is empty. -/
def Ht.withKey (s : Ht) (j f w : ℕ) : Ht :=
  if s.key j f = doesNotExist then (s.setKey j f w).addKeyCount j else s

/-- `hti_copy_entry`: entry `e` of table `i` to table `j`. -/
def htiCopyEntry (kt : KeyType) : ℕ → Ht → ℕ → ℕ → ℕ → ℕ → Option (Bool × Ht)
  | 0, _, _, _, _, _ => none
  | fuel + 1, s, i, e, keyHash, j =>
    let v := s.val i e
    if Dead v then some (false, s)
    -- kill empty entries
    else if v = doesNotExist then some (true, s.setVal i e copiedValue)
    else
      let s := s.setVal i e (tagValue v)
      if v = tombstone then some (true, s)
      else
        let w := s.key i e
        let key := kt.keyOf w
        let keyHash := if keyHash = 0 then kt.hash key else keyHash
        match (s.tables j).lookup kt key keyHash with
        | none =>
          -- no room in table `j` either
          let s := if j + 1 < s.len then s else htiStartCopy s j
          htiCopyEntry kt fuel s i e keyHash (j + 1)
        | some f =>
          let s := s.withKey j f w
          let old := s.val j f
          let s := if old = doesNotExist then s.setVal j f (stripTag v) else s
          -- the key may have come into a dead entry
          if old = copiedValue then htiCopyEntry kt fuel s i e keyHash (j + 1)
          else
            let s := s.setVal i e copiedValue
            if old = doesNotExist then some (true, (s.addCount i (2 ^ 64 - 1)).addCount j 1)
            else some (false, s)

/-- The loop of `hti_help_copy`: `n` entries of table `i` from entry `e` on. -/
def htiCopyEntries (kt : KeyType) (fuel : ℕ) (i : ℕ) : Ht → ℕ → ℕ → ℕ → Option (ℕ × Ht)
  | s, _, 0, numCopied => some (numCopied, s)
  | s, e, n + 1, numCopied =>
    match htiCopyEntry kt fuel s i e 0 (i + 1) with
    | none => none
    | some (did, s) => htiCopyEntries kt fuel i s (e + 1) n (numCopied + did.toNat)

/-- `hti_help_copy`; whether the copy is done. -/
def htiHelpCopy (kt : KeyType) (fuel : ℕ) (s : Ht) (i : ℕ) : Option (Bool × Ht) :=
  let size := 2 ^ (s.tables i).scale
  let totalCopied := (s.tables i).numEntriesCopied
  let x := (s.tables i).copyScan
  if totalCopied = size then some (true, s)
  else
    -- panic after two passes over the table
    let copied :=
      if 2 ^ ((s.tables i).scale + 1) ≤ x then htiCopyEntries kt fuel i s 0 size 0
      else
        htiCopyEntries kt fuel i (s.setCopyScan i (x + entriesPerCopyChunk)) (x % size)
          entriesPerCopyChunk 0
    copied.map fun (numCopied, s) =>
      if numCopied = 0 then (decide (totalCopied = size), s)
      else
        let s := s.addCopied i numCopied
        (decide ((s.tables i).numEntriesCopied = size), s)

/-! ## The calls -/

/-- `hti_cas`. -/
def htiCas (kt : KeyType) (fuel : ℕ) (s : Ht) (i key keyHash expected new : ℕ) :
    Option (ℕ × Ht) :=
  match (s.tables i).lookup kt key keyHash with
  | none => some (copiedValue, if i + 1 < s.len then s else htiStartCopy s i)
  | some e =>
    if s.key i e = doesNotExist
        ∧ ((expected ≠ expectWhatever ∧ expected ≠ expectDoesNotExist) ∨ new = doesNotExist) then
      some (doesNotExist, s)
    else
      let s :=
        if s.key i e = doesNotExist then
          ((s.setKey i e (kt.newKey s.clones key keyHash)).cloned).addKeyCount i
        else s
      let v := s.val i e
      if IsTagged v then
        if Dead v then some (copiedValue, s)
        else
          (htiCopyEntry kt fuel s i e keyHash (i + 1)).map fun (did, s) =>
            (copiedValue, if did then s.addCopied i 1 else s)
      else
        let oldExisted := v ≠ tombstone ∧ v ≠ doesNotExist
        if expected ≠ expectWhatever ∧ expected ≠ v
            ∧ expected ≠ (if oldExisted then expectExists else expectDoesNotExist) then
          some (v, s)
        else if (new = doesNotExist ∧ ¬ oldExisted) ∨ v = new then some (v, s)
        else
          let s := s.setVal i e (if new = doesNotExist then tombstone else new)
          let s :=
            if oldExisted ∧ new = doesNotExist then s.addCount i (2 ^ 64 - 1)
            else if ¬ oldExisted ∧ new ≠ doesNotExist then s.addCount i 1
            else s
          some (v, s)

/-- What `hti_cas` leaves: `s₁` is the table with the new key, if the entry was empty. -/
theorem htiCas_cases {kt : KeyType} {s s' : Ht} {i key keyHash expected new fuel r : ℕ}
    (h : htiCas kt fuel s i key keyHash expected new = some (r, s')) :
    ((s.tables i).lookup kt key keyHash = none
        ∧ s' = if i + 1 < s.len then s else htiStartCopy s i)
    ∨ ∃ e, (s.tables i).lookup kt key keyHash = some e
      ∧ (s' = s ∨ ∃ s₁, s₁ = (if s.key i e = doesNotExist then
            ((s.setKey i e (kt.newKey s.clones key keyHash)).cloned).addKeyCount i else s)
          ∧ ((IsTagged (s₁.val i e) ∧ Dead (s₁.val i e) ∧ s' = s₁)
            ∨ (IsTagged (s₁.val i e) ∧ ¬ Dead (s₁.val i e)
              ∧ ∃ did s₂, htiCopyEntry kt fuel s₁ i e keyHash (i + 1) = some (did, s₂)
                ∧ s' = if did then s₂.addCopied i 1 else s₂)
            ∨ (¬ IsTagged (s₁.val i e) ∧ (s' = s₁
              ∨ ∃ v, s' = s₁.setVal i e v ∨ ∃ c, s' = (s₁.setVal i e v).addCount i c)))) := by
  unfold htiCas at h
  cases hf : (s.tables i).lookup kt key keyHash with
  | none =>
    rw [hf] at h
    cases h
    exact Or.inl ⟨rfl, rfl⟩
  | some e =>
    rw [hf] at h
    refine Or.inr ⟨e, rfl, ?_⟩
    rcases ite_eq_iff.mp h with ⟨-, h⟩ | ⟨-, h⟩
    · cases h
      exact Or.inl rfl
    · refine Or.inr ⟨_, rfl, ?_⟩
      rcases ite_eq_iff.mp h with ⟨htag, h⟩ | ⟨htag, h⟩
      · rcases ite_eq_iff.mp h with ⟨hdead, h⟩ | ⟨hdead, h⟩
        · cases h
          exact Or.inl ⟨htag, hdead, rfl⟩
        · obtain ⟨⟨did, s₂⟩, hcopy, h⟩ := Option.map_eq_some_iff.mp h
          cases h
          exact Or.inr (Or.inl ⟨htag, hdead, did, s₂, hcopy, rfl⟩)
      · refine Or.inr (Or.inr ⟨htag, ?_⟩)
        rcases ite_eq_iff.mp h with ⟨-, h⟩ | ⟨-, h⟩
        · cases h
          exact Or.inl rfl
        · rcases ite_eq_iff.mp h with ⟨-, h⟩ | ⟨-, h⟩
          · cases h
            exact Or.inl rfl
          · rcases ite_eq_iff.mp (Prod.mk.inj (Option.some.inj h)).2 with ⟨-, rfl⟩ | ⟨-, h⟩
            · exact Or.inr ⟨_, Or.inr ⟨_, rfl⟩⟩
            · rcases ite_eq_iff.mp h with ⟨-, rfl⟩ | ⟨-, rfl⟩
              · exact Or.inr ⟨_, Or.inr ⟨_, rfl⟩⟩
              · exact Or.inr ⟨_, Or.inl rfl⟩

/-- The loop of `ht_cas` and of `ht_remove`. -/
def casLoop (kt : KeyType) : ℕ → Ht → ℕ → ℕ → ℕ → ℕ → Option (ℕ × Ht)
  | 0, _, _, _, _, _ => none
  | fuel + 1, s, i, key, expected, new =>
    match htiCas kt fuel s i key (kt.hash key) expected new with
    | none => none
    | some (old, s) =>
      if old = copiedValue then casLoop kt fuel s (i + 1) key expected new
      else some (if old = tombstone then doesNotExist else old, s)

/-- `ht_cas`. -/
def htCas (kt : KeyType) (fuel : ℕ) (s : Ht) (key expected new : ℕ) : Option (ℕ × Ht) :=
  let i := s.hti
  if i + 1 < s.len then
    match htiHelpCopy kt fuel s i with
    | none => none
    | some (finished, s) =>
      casLoop kt fuel (if finished then { s with hti := i + 1 } else s) i key expected new
  else casLoop kt fuel s i key expected new

/-- `ht_remove`. -/
def htRemove (kt : KeyType) (fuel : ℕ) (s : Ht) (key : ℕ) : Option (ℕ × Ht) :=
  casLoop kt fuel s s.hti key expectWhatever doesNotExist

/-- `hti_get`. -/
def htiGet (kt : KeyType) : ℕ → Ht → ℕ → ℕ → ℕ → Option (ℕ × Ht)
  | 0, _, _, _, _ => none
  | fuel + 1, s, i, key, keyHash =>
    match (s.tables i).lookup kt key keyHash with
    | none => if i + 1 < s.len then htiGet kt fuel s (i + 1) key keyHash else some (doesNotExist, s)
    | some e =>
      if s.key i e = doesNotExist then some (doesNotExist, s)
      else
        let v := s.val i e
        if IsTagged v then
          if Dead v then htiGet kt fuel s (i + 1) key keyHash
          else
            match htiCopyEntry kt fuel s i e keyHash (i + 1) with
            | none => none
            | some (did, s) =>
              htiGet kt fuel (if did then s.addCopied i 1 else s) (i + 1) key keyHash
        else some (if v = tombstone then doesNotExist else v, s)

/-- `ht_get`. -/
def htGet (kt : KeyType) (fuel : ℕ) (s : Ht) (key : ℕ) : Option (ℕ × Ht) :=
  htiGet kt fuel s s.hti key (kt.hash key)

/-- A call. -/
inductive Call where
  | cas (key expected new : ℕ)
  | get (key : ℕ)
  | remove (key : ℕ)
  | count
  deriving DecidableEq, Repr

/-- What a call returns, and the table it leaves. -/
def call (kt : KeyType) (fuel : ℕ) (s : Ht) : Call → Option (ℕ × Ht)
  | .cas key expected new => htCas kt fuel s key expected new
  | .get key => htGet kt fuel s key
  | .remove key => htRemove kt fuel s key
  | .count => some (htCount s, s)

/-- The results of a sequence of calls. -/
def calls (kt : KeyType) (fuel : ℕ) : Ht → List Call → Option (List ℕ)
  | _, [] => some []
  | s, c :: cs =>
    match call kt fuel s c with
    | none => none
    | some (r, s) => (calls kt fuel s cs).map (r :: ·)

/-- The calls that the assertions of the table allow: keys are non-zero words, new values
are legal, and expectations are legal values or one of the three special ones. -/
def Call.Valid : Call → Prop
  | .cas key expected new =>
    (key ≠ 0 ∧ key < 2 ^ 64) ∧ Legal new
      ∧ (expected = expectDoesNotExist ∨ expected = expectExists ∨ expected = expectWhatever
        ∨ Legal expected)
  | .get key | .remove key => key ≠ 0 ∧ key < 2 ^ 64
  | .count => True

instance (c : Call) : Decidable c.Valid := by
  unfold Call.Valid
  split <;> infer_instance

/-! ## A finite map -/

/-- The value of a key in a finite map, given as a list without equal keys. -/
def mapGet (kt : KeyType) (m : List (ℕ × ℕ)) (key : ℕ) : Option ℕ :=
  (m.find? fun p => kt.Same p.1 key).map (·.2)

/-- Remove a key from a finite map. -/
def mapErase (kt : KeyType) (m : List (ℕ × ℕ)) (key : ℕ) : List (ℕ × ℕ) :=
  m.filter fun p => ¬ kt.Same p.1 key

/-- Set the value of a key in a finite map. -/
def mapSet (kt : KeyType) (m : List (ℕ × ℕ)) (key value : ℕ) : List (ℕ × ℕ) :=
  (key, value) :: mapErase kt m key

/-- Whether an expectation is met by what the map has. -/
def Expected (expected : ℕ) (old : Option ℕ) : Prop :=
  expected = expectWhatever ∨ (expected = expectExists ∧ old ≠ none)
    ∨ (expected = expectDoesNotExist ∧ old = none) ∨ old = some expected

instance (expected : ℕ) (old : Option ℕ) : Decidable (Expected expected old) :=
  inferInstanceAs (Decidable (_ ∨ _))

/-- What a call returns on a finite map, and the map it leaves. -/
def mapCall (kt : KeyType) (m : List (ℕ × ℕ)) : Call → ℕ × List (ℕ × ℕ)
  | .cas key expected new =>
    ((mapGet kt m key).getD doesNotExist,
      if Expected expected (mapGet kt m key) then mapSet kt m key new else m)
  | .get key => ((mapGet kt m key).getD doesNotExist, m)
  | .remove key => ((mapGet kt m key).getD doesNotExist, mapErase kt m key)
  | .count => (m.length, m)

/-- The results of a sequence of calls on a finite map. -/
def mapCalls (kt : KeyType) : List (ℕ × ℕ) → List Call → List ℕ
  | _, [] => []
  | m, c :: cs => (mapCall kt m c).1 :: mapCalls kt (mapCall kt m c).2 cs

end Hashtable
