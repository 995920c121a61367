/-
# Towers

Nodes of given heights, linked at every level below their height behind a root: the
chain of a level is the part of the bottom chain that is high enough.

* `Shape.Towers` — this, with increasing keys; `Towers.levels` is what follows for the levels;
* `Towers.insert`, `Towers.update`, `Towers.remove` — what the change of one node needs,
  level by level.

Nothing here refers to a particular program.
-/
import Ssr.Chain
import Ssr.SortedMap

open Chain SortedMap

namespace Tower

/-- The nodes: their keys, values and heights, and the successor of a node at a level.
Node `0` is the root; `brk` is the next unused node and `water` bounds the heights. -/
structure Shape where
  key : ℕ → ℕ
  val : ℕ → ℕ
  height : ℕ → ℕ
  succ : ℕ → ℕ → Option ℕ
  brk : ℕ
  water : ℕ

/-- The nodes of `xs` that reach level `level`. -/
def Shape.above (s : Shape) (level : ℕ) (xs : List ℕ) : List ℕ :=
  xs.filter fun a => level < s.height a

/-- The keys and values of the nodes. -/
def Shape.entries (s : Shape) (xs : List ℕ) : List (ℕ × ℕ) :=
  xs.map fun a => (s.key a, s.val a)

/-- The nodes behind the root are `xs`, and the chain of every level is the part of `xs`
that reaches it: the keys increase and no value is `0`. -/
structure Shape.Towers (rank : ℕ ↪ ℤ) (s : Shape) (xs : List ℕ) : Prop where
  links : ∀ level, Links (s.succ level) 0 (s.above level xs)
  nodup : (0 :: xs).Nodup
  alloc : ∀ a ∈ 0 :: xs, a < s.brk
  sorted : xs.Pairwise fun a b => rank (s.key a) < rank (s.key b)
  vals : ∀ a ∈ xs, s.val a ≠ 0
  heights : ∀ a ∈ xs, 0 < s.height a ∧ s.height a ≤ s.water

/-- What holds of the chains of the levels: they are sorted, each is a part of the one
below, and no node is higher than `water`. -/
structure Shape.Levels (rank : ℕ ↪ ℤ) (s : Shape) (chain : ℕ → List ℕ) : Prop where
  links : ∀ level, Links (s.succ level) 0 (chain level)
  sorted : ∀ level, (chain level).Pairwise fun a b => rank (s.key a) < rank (s.key b)
  sublist : ∀ level, (chain (level + 1)).Sublist (chain level)
  heights : ∀ level, ∀ a ∈ chain level, s.height a ≤ s.water

section Above

variable {s s' : Shape} {level x : ℕ}

theorem above_append (xs ys : List ℕ) :
    s.above level (xs ++ ys) = s.above level xs ++ s.above level ys :=
  List.filter_append ..

theorem above_cons (xs : List ℕ) : s.above level (x :: xs)
    = if level < s.height x then x :: s.above level xs else s.above level xs := by
  simp [Shape.above, List.filter_cons]

theorem above_cons_of_lt (xs : List ℕ) (hx : level < s.height x) :
    s.above level (x :: xs) = x :: s.above level xs := by
  rw [above_cons, if_pos hx]

theorem above_cons_of_le (xs : List ℕ) (hx : s.height x ≤ level) :
    s.above level (x :: xs) = s.above level xs := by
  rw [above_cons, if_neg (not_lt.mpr hx)]

theorem mem_above {a : ℕ} {xs : List ℕ} :
    a ∈ s.above level xs ↔ a ∈ xs ∧ level < s.height a := by
  simp [Shape.above]

theorem mem_above_of_succ {a : ℕ} {xs : List ℕ} (ha : a ∈ s.above (level + 1) xs) :
    a ∈ s.above level xs := by
  rw [mem_above] at ha ⊢
  exact ⟨ha.1, by omega⟩

/-- A level is a part of the level below. -/
theorem above_sublist (xs : List ℕ) : (s.above (level + 1) xs).Sublist (s.above level xs) := by
  apply List.monotone_filter_right
  intro a ha
  simp only [decide_eq_true_eq] at ha ⊢
  omega

/-- Nothing reaches a level above the heights. -/
theorem above_eq_nil {xs : List ℕ} (hx : ∀ a ∈ xs, s.height a ≤ level) :
    s.above level xs = [] := by
  apply List.filter_eq_nil_iff.mpr
  intro a ha
  simpa using hx a ha

theorem above_zero {xs : List ℕ} (hx : ∀ a ∈ xs, 0 < s.height a) : s.above 0 xs = xs := by
  apply List.filter_eq_self.mpr
  intro a ha
  simpa using hx a ha

theorem above_congr {xs : List ℕ} (hl : ∀ a ∈ xs, s'.height a = s.height a) :
    s'.above level xs = s.above level xs := by
  apply List.filter_congr
  intro a ha
  rw [hl a ha]

/-- A node of the chain of a level is a node of the bottom chain. -/
theorem mem_of_mem_above {a : ℕ} {xs : List ℕ} (ha : a ∈ 0 :: s.above level xs) :
    a ∈ 0 :: xs := by
  rcases List.mem_cons.mp ha with rfl | ha
  · exact List.mem_cons_self
  · exact List.mem_cons_of_mem 0 (mem_above.mp ha).1

theorem getLastD_above_mem (s : Shape) (level : ℕ) (lo hi : List ℕ) :
    (s.above level lo).getLastD 0 ∈ 0 :: (lo ++ hi) :=
  List.mem_append_left hi (mem_of_mem_above (getLastD_mem 0 (s.above level lo)))

theorem entries_append (s : Shape) (xs ys : List ℕ) :
    s.entries (xs ++ ys) = s.entries xs ++ s.entries ys :=
  List.map_append ..

theorem entries_congr {xs : List ℕ} (hk : ∀ a ∈ xs, s'.key a = s.key a)
    (hv : ∀ a ∈ xs, s'.val a = s.val a) : s'.entries xs = s.entries xs := by
  apply List.map_congr_left
  intro a ha
  rw [hk a ha, hv a ha]

/-- The map at the place of a key that is there. -/
theorem entries_present {lo hi : List ℕ} {k : ℕ} (hx : s.key x = k) :
    s.entries (lo ++ x :: hi) = s.entries lo ++ (k, s.val x) :: s.entries hi := by
  rw [entries_append, ← hx]
  rfl

end Above

namespace Shape.Towers

variable {rank : ℕ ↪ ℤ} {s : Shape} {xs lo hi : List ℕ} {k x : ℕ}

/-- The chain of a level has no node twice. -/
theorem nodup_above (ht : s.Towers rank xs) (level : ℕ) : (0 :: s.above level xs).Nodup :=
  ht.nodup.sublist (List.filter_sublist.cons_cons 0)

/-- The keys of a level increase. -/
theorem sorted_above (ht : s.Towers rank xs) (level : ℕ) :
    (s.above level xs).Pairwise fun a b => rank (s.key a) < rank (s.key b) :=
  ht.sorted.sublist List.filter_sublist

/-- **The levels of towers.** -/
theorem levels (ht : s.Towers rank xs) : s.Levels rank fun level => s.above level xs :=
  ⟨ht.links, ht.sorted_above, fun _ => above_sublist xs,
    fun _ a ha => (ht.heights a (mem_above.mp ha).1).2⟩

/-- The bottom chain. -/
theorem bottom (ht : s.Towers rank xs) : Links (s.succ 0) 0 xs := by
  have hlinks := ht.links 0
  rwa [above_zero fun a ha => (ht.heights a ha).1] at hlinks

/-- The node before a place at a level. -/
theorem pred (ht : s.Towers rank (lo ++ hi)) (level : ℕ) :
    (s.above level lo).getLastD 0 < s.brk
      ∧ s.succ level ((s.above level lo).getLastD 0) = (s.above level hi).head? := by
  have hlinks := ht.links level
  rw [above_append] at hlinks
  exact ⟨ht.alloc _ (getLastD_above_mem s level lo hi), hlinks.suffix.next_eq⟩

/-- The part of a level behind the last small node of the level above. -/
theorem rest (ht : s.Towers rank (lo ++ hi)) (level : ℕ) :
    ∃ back, Links (s.succ level) ((s.above (level + 1) lo).getLastD 0) (back ++ s.above level hi)
      ∧ (∀ a ∈ back, a ∈ lo)
      ∧ (s.above level lo).getLastD 0 = back.getLastD ((s.above (level + 1) lo).getLastD 0) := by
  have hlinks := ht.links level
  rw [above_append] at hlinks
  obtain ⟨back, hrest, hback, hlast⟩ :=
    hlinks.rest fun b (hb : b ∈ s.above (level + 1) lo) => mem_above_of_succ hb
  exact ⟨back, hrest, fun a ha => (mem_above.mp (hback a ha)).1, hlast⟩

/-- A node between two parts of the towers is in neither. -/
theorem ne_parts (ht : s.Towers rank (lo ++ x :: hi)) : ∀ a ∈ 0 :: (lo ++ hi), a ≠ x := by
  rintro a ha rfl
  have hperm : (0 :: (lo ++ a :: hi)).Perm (a :: 0 :: (lo ++ hi)) :=
    (List.perm_middle.cons 0).trans (List.Perm.swap _ _ _)
  exact (List.nodup_cons.mp ((List.Perm.nodup_iff hperm).mp ht.nodup)).1 ha

/-- A new node of height `n` behind the nodes of smaller keys. -/
theorem insert (ht : s.Towers rank (lo ++ hi)) (hlo : ∀ a ∈ lo, rank (s.key a) < rank k)
    (hhi : ∀ a ∈ hi, rank k < rank (s.key a)) (s' : Shape) {v n : ℕ} (hv : v ≠ 0) (hn : 0 < n)
    (hnw : n ≤ s.water) (hbrk : s'.brk = s.brk + 1) (hwater : s'.water = s.water)
    (hkey : s'.key s.brk = k) (hval : s'.val s.brk = v) (hheight : s'.height s.brk = n)
    (hnew : ∀ m, s'.succ m s.brk = if m < n then (s.above m hi).head? else none)
    (hsame : ∀ a, a ≠ s.brk →
      s'.key a = s.key a ∧ s'.val a = s.val a ∧ s'.height a = s.height a)
    (hsucc : ∀ a m, a ≠ s.brk → s'.succ m a
      = if m < n ∧ a = (s.above m lo).getLastD 0 then some s.brk else s.succ m a) :
    s'.Towers rank (lo ++ s.brk :: hi)
      ∧ s'.entries (lo ++ s.brk :: hi) = s.entries lo ++ (k, v) :: s.entries hi := by
  have hne : ∀ a ∈ 0 :: (lo ++ hi), a ≠ s.brk := fun a ha => (ht.alloc a ha).ne
  have hne_lo : ∀ a ∈ lo, a ≠ s.brk := fun a ha => hne a (by simp [ha])
  have hne_hi : ∀ a ∈ hi, a ≠ s.brk := fun a ha => hne a (by simp [ha])
  constructor
  · refine ⟨fun level => ?_, nodup_insert ht.nodup fun hm => hne _ hm rfl, ?_, ?_, ?_, ?_⟩
    · have hlinks := ht.links level
      have hnd := ht.nodup_above level
      rw [above_append] at hlinks hnd ⊢
      rw [above_cons, hheight, above_congr fun a ha => (hsame a (hne_lo a ha)).2.2,
        above_congr fun a ha => (hsame a (hne_hi a ha)).2.2]
      have hmem : ∀ a ∈ 0 :: (s.above level lo ++ s.above level hi), a ≠ s.brk := by
        intro a ha
        rw [← above_append] at ha
        exact hne a (mem_of_mem_above ha)
      split_ifs with hlevel
      · refine hlinks.insert hnd ?_ ?_ fun a ha hap => ?_
        · rw [hsucc _ _ ((ht.pred level).1.ne), if_pos ⟨hlevel, rfl⟩]
        · rw [hnew, if_pos hlevel]
        · rw [hsucc a level (hmem a ha), if_neg fun hc => hap hc.2]
      · refine hlinks.congr fun a ha => ?_
        rw [hsucc a level (hmem a ha), if_neg fun hc => hlevel hc.1]
    · intro a ha
      rw [hbrk]
      rcases mem_insert_iff.mp ha with rfl | ha
      · exact Nat.lt_succ_self _
      · exact Nat.lt_succ_of_lt (ht.alloc a ha)
    · apply pairwise_insert
      · refine ht.sorted.imp_of_mem fun {a b} ha hb hab => ?_
        rwa [(hsame a (hne a (List.mem_cons_of_mem 0 ha))).1,
          (hsame b (hne b (List.mem_cons_of_mem 0 hb))).1]
      · intro a ha
        rw [(hsame a (hne_lo a ha)).1, hkey]
        exact hlo a ha
      · intro b hb
        rw [(hsame b (hne_hi b hb)).1, hkey]
        exact hhi b hb
    · intro a ha
      by_cases hb : a = s.brk
      · rw [hb, hval]
        exact hv
      · rw [(hsame a hb).2.1]
        refine ht.vals a ?_
        simp only [List.mem_append, List.mem_cons, hb, false_or] at ha ⊢
        exact ha
    · intro a ha
      rw [hwater]
      by_cases hb : a = s.brk
      · rw [hb, hheight]
        exact ⟨hn, hnw⟩
      · rw [(hsame a hb).2.2]
        refine ht.heights a ?_
        simp only [List.mem_append, List.mem_cons, hb, false_or] at ha ⊢
        exact ha
  · rw [entries_present hkey, hval,
      entries_congr (fun a ha => (hsame a (hne_lo a ha)).1) fun a ha => (hsame a (hne_lo a ha)).2.1,
      entries_congr (fun a ha => (hsame a (hne_hi a ha)).1) fun a ha => (hsame a (hne_hi a ha)).2.1]

/-- A new value for a node. -/
theorem update (ht : s.Towers rank (lo ++ x :: hi)) (s' : Shape) {v : ℕ} (hv : v ≠ 0)
    (hbrk : s'.brk = s.brk) (hwater : s'.water = s.water) (hkey : ∀ a, s'.key a = s.key a)
    (hheight : ∀ a, s'.height a = s.height a) (hsucc : ∀ m a, s'.succ m a = s.succ m a)
    (hval : ∀ a, s'.val a = if a = x then v else s.val a) :
    s'.Towers rank (lo ++ x :: hi)
      ∧ s'.entries (lo ++ x :: hi) = s.entries lo ++ (s.key x, v) :: s.entries hi := by
  constructor
  · refine ⟨fun level => ?_, ht.nodup, ?_, ?_, ?_, ?_⟩
    · rw [above_congr fun a _ => hheight a]
      exact (ht.links level).congr fun a _ => hsucc level a
    · rw [hbrk]
      exact ht.alloc
    · simpa only [hkey] using ht.sorted
    · intro a ha
      rw [hval]
      split_ifs
      · exact hv
      · exact ht.vals a ha
    · intro a ha
      rw [hheight, hwater]
      exact ht.heights a ha
  · have hsame : ∀ a, a ≠ x → s'.val a = s.val a := fun a ha => by rw [hval, if_neg ha]
    have hne := ht.ne_parts
    rw [entries_present (hkey x), hval, if_pos rfl,
      entries_congr (fun a _ => hkey a) fun a ha => hsame a (hne a (by simp [ha])),
      entries_congr (fun a _ => hkey a) fun a ha => hsame a (hne a (by simp [ha]))]

/-- The bound of the heights rises. -/
theorem raise (ht : s.Towers rank xs) :
    ({ s with water := s.water + 1 } : Shape).Towers rank xs :=
  ⟨ht.links, ht.nodup, ht.alloc, ht.sorted, ht.vals,
    fun a ha => ⟨(ht.heights a ha).1, Nat.le_succ_of_le (ht.heights a ha).2⟩⟩

/-- A node goes. -/
theorem remove (ht : s.Towers rank (lo ++ x :: hi)) (s' : Shape) (hbrk : s'.brk = s.brk)
    (hwater : s'.water = s.water)
    (hsame : ∀ a, a ≠ x → s'.key a = s.key a ∧ s'.val a = s.val a ∧ s'.height a = s.height a)
    (hsucc : ∀ a m, a ≠ x → s'.succ m a
      = if m < s.height x ∧ a = (s.above m lo).getLastD 0 then (s.above m hi).head?
        else s.succ m a) :
    s'.Towers rank (lo ++ hi) ∧ s'.entries (lo ++ hi) = s.entries lo ++ s.entries hi := by
  have hsub : (lo ++ hi).Sublist (lo ++ x :: hi) :=
    (List.sublist_cons_self x hi).append_left lo
  have hmem : ∀ a ∈ 0 :: (lo ++ hi), a ∈ 0 :: (lo ++ x :: hi) :=
    fun a ha => (hsub.cons_cons 0).subset ha
  have hne := ht.ne_parts
  have hne_lo : ∀ a ∈ lo, a ≠ x := fun a ha => hne a (by simp [ha])
  have hne_hi : ∀ a ∈ hi, a ≠ x := fun a ha => hne a (by simp [ha])
  constructor
  · refine ⟨fun level => ?_, ht.nodup.sublist (hsub.cons_cons 0), ?_, ?_, ?_, ?_⟩
    · have hlinks := ht.links level
      have hnd := ht.nodup_above level
      rw [above_append, above_cons] at hlinks hnd
      rw [above_append, above_congr fun a ha => (hsame a (hne_lo a ha)).2.2,
        above_congr fun a ha => (hsame a (hne_hi a ha)).2.2]
      have hmem' : ∀ a ∈ 0 :: (s.above level lo ++ s.above level hi), a ≠ x := by
        intro a ha
        rw [← above_append] at ha
        exact hne a (mem_of_mem_above ha)
      split_ifs at hlinks hnd with hlevel
      · refine hlinks.delete hnd ?_ fun a ha hap => ?_
        · have hpx : (s.above level lo).getLastD 0 ≠ x := hne _ (getLastD_above_mem s level lo hi)
          rw [hsucc _ _ hpx, if_pos ⟨hlevel, rfl⟩]
        · rw [hsucc a level (hmem' a ha), if_neg fun hc => hap hc.2]
      · refine hlinks.congr fun a ha => ?_
        rw [hsucc a level (hmem' a ha), if_neg fun hc => hlevel hc.1]
    · intro a ha
      rw [hbrk]
      exact ht.alloc a (hmem a ha)
    · refine (ht.sorted.sublist hsub).imp_of_mem fun {a b} ha hb hab => ?_
      rwa [(hsame a (hne a (List.mem_cons_of_mem 0 ha))).1,
        (hsame b (hne b (List.mem_cons_of_mem 0 hb))).1]
    · intro a ha
      rw [(hsame a (hne a (List.mem_cons_of_mem 0 ha))).2.1]
      exact ht.vals a (hsub.subset ha)
    · intro a ha
      rw [(hsame a (hne a (List.mem_cons_of_mem 0 ha))).2.2, hwater]
      exact ht.heights a (hsub.subset ha)
  · rw [entries_append,
      entries_congr (fun a ha => (hsame a (hne_lo a ha)).1) fun a ha => (hsame a (hne_lo a ha)).2.1,
      entries_congr (fun a ha => (hsame a (hne_hi a ha)).1) fun a ha => (hsame a (hne_hi a ha)).2.1]

end Shape.Towers

end Tower
