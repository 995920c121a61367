/-
# Chains whose removed nodes keep their links

A chain of nodes sorted by key, to which nodes are added and of which nodes are taken out
one at a time.  A node that is taken out is marked, and its link stays as it was: whoever
stands on it follows it back into the chain.

* `View`, `View.Chained` — the links, marks and keys, and the nodes of the chain;
* `Change` — nothing changes, a node comes in, or a node goes;
* `Kept` — every node that was in the chain since some moment still leads to all nodes of
  larger keys that have been in it since then; `Kept.change`, it stays so;
* `View.skip` — the first unmarked node from some node on, and what it leads to;
* `Ahead` — a place from which all nodes are reached that are still to come.

Nothing here refers to a particular program.
-/
import Ssr.Chain

open Chain

namespace FrozenChain

/-! ## A chain and its changes -/

/-- The links, marks and keys of the nodes, which are numbers below `brk`; the root is 0. -/
structure View where
  succ : ℕ → Option ℕ
  mark : ℕ → Bool
  key : ℕ → ℕ
  brk : ℕ

/-- The order of the keys, with the root before all nodes. -/
def View.Lt (v : View) (a b : ℕ) : Prop := b ≠ 0 ∧ (a ≠ 0 → v.key a < v.key b)

/-- The nodes behind the root are `xs`: none is marked, and their keys increase. -/
structure View.Chained (v : View) (xs : List ℕ) : Prop where
  links : Links v.succ 0 xs
  nodup : (0 :: xs).Nodup
  alloc : ∀ a ∈ 0 :: xs, a < v.brk
  unmarked : ∀ a ∈ 0 :: xs, v.mark a = false
  sorted : xs.Pairwise fun a b => v.key a < v.key b

/-- The links stay as they are, node `v.brk` comes in behind `lo`, or the node behind `lo`
goes. -/
inductive Change (v v' : View) : List ℕ → List ℕ → Prop
  | same (xs : List ℕ) (hsucc : v'.succ = v.succ) (hmark : v'.mark = v.mark)
      (hkey : v'.key = v.key) (hbrk : v'.brk = v.brk) : Change v v' xs xs
  | insert (lo hi : List ℕ) (hnew : v'.succ v.brk = hi.head?) (hbrk : v'.brk = v.brk + 1)
      (hkeep : ∀ a ≠ v.brk, v'.key a = v.key a ∧ v'.mark a = v.mark a
        ∧ v'.succ a = if a = lo.getLastD 0 then some v.brk else v.succ a) :
      Change v v' (lo ++ hi) (lo ++ v.brk :: hi)
  | remove (lo hi : List ℕ) (x : ℕ) (hbrk : v'.brk = v.brk) (hmark : v'.mark x = true)
      (hkeep : ∀ a, v'.key a = v.key a ∧ (a ≠ x → v'.mark a = v.mark a)
        ∧ v'.succ a = if a = lo.getLastD 0 then hi.head? else v.succ a) :
      Change v v' (lo ++ x :: hi) (lo ++ hi)

section Chained

variable {v : View} {xs lo hi : List ℕ} {a b c x : ℕ}

theorem View.Lt.trans (h : v.Lt a b) (h' : v.Lt b c) : v.Lt a c :=
  ⟨h'.1, fun ha => (h.2 ha).trans (h'.2 h.1)⟩

theorem View.Lt.irrefl (h : v.Lt a a) : False := lt_irrefl _ (h.2 h.1)

theorem View.Chained.ne_zero (hc : v.Chained xs) (ha : a ∈ xs) : a ≠ 0 := by
  rintro rfl
  exact (List.nodup_cons.mp hc.nodup).1 ha

/-- The link of a node of the chain. -/
theorem View.Chained.succ_lt (hc : v.Chained xs) (ha : a ∈ 0 :: xs) (hb : v.succ a = some b) :
    b ∈ xs ∧ v.Lt a b := by
  rcases List.mem_cons.mp ha with rfl | ha
  · have hmem : b ∈ xs := List.mem_of_mem_head? (hc.links.next_eq ▸ hb)
    exact ⟨hmem, hc.ne_zero hmem, fun h => absurd rfl h⟩
  · obtain ⟨us, ys, rfl⟩ := List.append_of_mem ha
    have hnext : v.succ a = ys.head? := hc.links.suffix.2.next_eq
    have hmem : b ∈ ys := List.mem_of_mem_head? (hnext ▸ hb)
    have hlt := (List.pairwise_append.mp hc.sorted).2.1
    refine ⟨by simp [hmem], hc.ne_zero (by simp [hmem]), fun _ => ?_⟩
    exact List.rel_of_pairwise_cons hlt hmem

/-- Nodes of the chain lead to those behind them. -/
theorem View.Chained.reach (hc : v.Chained xs) (ha : a ∈ 0 :: xs) (hb : b ∈ 0 :: xs)
    (hlt : v.Lt a b) : Reach v.succ a b := by
  have hmem : ∀ c d, Reach v.succ c d → c ∈ 0 :: xs → d ∈ 0 :: xs ∧ (c = d ∨ v.Lt c d) := by
    intro c d h hc'
    induction h with
    | refl => exact ⟨hc', .inl rfl⟩
    | @tail y z _ hyz ih =>
      obtain ⟨hz, hyz'⟩ := hc.succ_lt ih.1 hyz
      refine ⟨List.mem_cons_of_mem 0 hz, .inr ?_⟩
      rcases ih.2 with rfl | h
      · exact hyz'
      · exact h.trans hyz'
  rcases (hc.links.reach ha).total (hc.links.reach hb) with h | h
  · exact h
  · rcases (hmem b a h hb).2 with rfl | h
    · exact Reach.refl _
    · exact absurd (hlt.trans h) View.Lt.irrefl

end Chained

/-! ## What the nodes that were in the chain lead to -/

/-- The nodes of `N` have been in the chain `xs` since some moment; the keys of `S` have been
in it at all moments since then. -/
structure Kept (v : View) (xs : List ℕ) (N S : ℕ → Prop) : Prop where
  chained : v.Chained xs
  live : ∀ a ∈ 0 :: xs, N a
  alloc : ∀ a, N a → a < v.brk
  frozen : ∀ a, N a → a ∈ 0 :: xs ∨ v.mark a = true
  closed : ∀ a, N a → ∀ b, v.succ a = some b → N b ∧ v.Lt a b
  leads : ∀ a, N a → ∀ s ∈ xs, S (v.key s) → v.Lt a s → Reach v.succ a s

/-- At the first moment. -/
theorem View.Chained.kept {v : View} {xs : List ℕ} (hc : v.Chained xs) (S : ℕ → Prop) :
    Kept v xs (· ∈ 0 :: xs) S where
  chained := hc
  live _ ha := ha
  alloc := hc.alloc
  frozen _ ha := .inl ha
  closed a ha b hb := by
    obtain ⟨hmem, hlt⟩ := hc.succ_lt ha hb
    exact ⟨List.mem_cons_of_mem 0 hmem, hlt⟩
  leads a ha s hs _ hlt := hc.reach ha (List.mem_cons_of_mem 0 hs) hlt

section Change

variable {v v' : View} {xs xs' lo hi : List ℕ} {N S : ℕ → Prop} {a b x : ℕ}

/-- The order between nodes that keep their keys. -/
theorem lt_congr (ha : v'.key a = v.key a) (hb : v'.key b = v.key b) : v'.Lt a b ↔ v.Lt a b := by
  unfold View.Lt
  rw [ha, hb]

/-- The last node of a prefix and the node behind it. -/
theorem View.Chained.lt_behind (hc : v.Chained (lo ++ x :: hi)) : v.Lt (lo.getLastD 0) x :=
  (hc.succ_lt (List.mem_append_left _ (getLastD_mem 0 lo)) hc.links.suffix.1).2

theorem Kept.same (h : Kept v xs N S) (hsucc : v'.succ = v.succ) (hmark : v'.mark = v.mark)
    (hkey : v'.key = v.key) (hbrk : v'.brk = v.brk) (hc' : v'.Chained xs) : Kept v' xs N S where
  chained := hc'
  live := h.live
  alloc a ha := hbrk ▸ h.alloc a ha
  frozen a ha := by
    rw [hmark]
    exact h.frozen a ha
  closed a ha b hb := by
    rw [lt_congr (congrFun hkey a) (congrFun hkey b)]
    exact h.closed a ha b (hsucc ▸ hb)
  leads a ha s hs hS hlt := by
    rw [hsucc]
    rw [lt_congr (congrFun hkey a) (congrFun hkey s)] at hlt
    exact h.leads a ha s hs (hkey ▸ hS) hlt

/-- The chains to the nodes that stay, when one goes. -/
theorem Kept.reach_remove (h : Kept v (lo ++ x :: hi) N S)
    (hkeep : ∀ a, v'.succ a = if a = lo.getLastD 0 then hi.head? else v.succ a) {s : ℕ}
    (hs : s ∈ lo ++ hi) (hreach : Reach v.succ a s) : Reach v'.succ a s := by
  have hpx : v.succ (lo.getLastD 0) = some x := h.chained.links.suffix.1
  have hxhi : v.succ x = hi.head? := h.chained.links.suffix.2.next_eq
  have hpne : x ≠ lo.getLastD 0 := fun heq => (heq ▸ h.chained.lt_behind).irrefl
  have hsx : s ≠ x := by
    rintro rfl
    have hnd := h.chained.nodup
    have hperm : (0 :: (lo ++ s :: hi)).Perm (s :: 0 :: (lo ++ hi)) :=
      (List.perm_middle.cons 0).trans (List.Perm.swap _ _ _)
    exact (List.nodup_cons.mp ((List.Perm.nodup_iff hperm).mp hnd)).1 (List.mem_cons_of_mem 0 hs)
  refine hreach.bypass hpx hpne (fun y => ?_) hsx
  rw [hkeep y, hxhi]

/-- The chains of the old nodes go through a new one. -/
theorem Kept.reach_insert (h : Kept v (lo ++ hi) N S) (hnew : v'.succ v.brk = hi.head?)
    (hkeep : ∀ a ≠ v.brk, v'.succ a = if a = lo.getLastD 0 then some v.brk else v.succ a) {s : ℕ}
    (ha : N a) (hreach : Reach v.succ a s) : Reach v'.succ a s := by
  have hne : ∀ a, N a → a ≠ v.brk := fun a ha => (h.alloc a ha).ne
  have hp : N (lo.getLastD 0) := h.live _ (List.mem_append_left hi (getLastD_mem 0 lo))
  have hpn : v'.succ (lo.getLastD 0) = some v.brk := by
    rw [hkeep _ (hne _ hp), if_pos rfl]
  have hphi : v.succ (lo.getLastD 0) = hi.head? := h.chained.links.suffix.next_eq
  have key : Reach v'.succ a s ∧ N s := by
    induction hreach with
    | refl => exact ⟨Reach.refl a, ha⟩
    | @tail y z _ hyz ih =>
      refine ⟨?_, (h.closed y ih.2 z hyz).1⟩
      by_cases hy : y = lo.getLastD 0
      · subst hy
        exact (ih.1.tail hpn).tail (hnew.trans (hphi.symm.trans hyz))
      · refine ih.1.tail ?_
        rw [hkeep y (hne y ih.2), if_neg hy]
        exact hyz
  exact key.1

/-- A node goes whose key is not tracked any more. -/
theorem Kept.remove (h : Kept v (lo ++ x :: hi) N S) (hbrk : v'.brk = v.brk)
    (hmark : v'.mark x = true)
    (hkeep : ∀ a, v'.key a = v.key a ∧ (a ≠ x → v'.mark a = v.mark a)
      ∧ v'.succ a = if a = lo.getLastD 0 then hi.head? else v.succ a)
    (hc' : v'.Chained (lo ++ hi)) : Kept v' (lo ++ hi) N S := by
  have hsub : ∀ a ∈ 0 :: (lo ++ hi), a ∈ 0 :: (lo ++ x :: hi) := fun a ha => by
    simp only [List.mem_cons, List.mem_append] at ha ⊢
    tauto
  have hpx : v.succ (lo.getLastD 0) = some x := h.chained.links.suffix.1
  have hxhi : v.succ x = hi.head? := h.chained.links.suffix.2.next_eq
  refine ⟨hc', fun a ha => h.live a (hsub a ha), fun a ha => hbrk ▸ h.alloc a ha, fun a ha => ?_,
    fun a ha b hb => ?_, fun a ha s hs hS hlts => ?_⟩
  · by_cases hax : a = x
    · exact .inr (hax ▸ hmark)
    · rcases h.frozen a ha with hmem | hm
      · left
        simp only [List.mem_cons, List.mem_append] at hmem ⊢
        tauto
      · exact .inr ((hkeep a).2.1 hax ▸ hm)
  · rw [lt_congr (hkeep a).1 (hkeep b).1]
    rw [(hkeep a).2.2] at hb
    split_ifs at hb with hap
    · -- past `x` to the node behind it
      obtain ⟨hNx, hltx⟩ := h.closed a ha x (hap ▸ hpx)
      obtain ⟨hNb, hltb⟩ := h.closed x hNx b (hxhi.trans hb)
      exact ⟨hNb, hltx.trans hltb⟩
    · exact h.closed a ha b hb
  · rw [(hkeep s).1] at hS
    rw [lt_congr (hkeep a).1 (hkeep s).1] at hlts
    have hmem : s ∈ lo ++ x :: hi := by
      simp only [List.mem_append, List.mem_cons] at hs ⊢
      tauto
    exact h.reach_remove (fun a => (hkeep a).2.2) hs (h.leads a ha s hmem hS hlts)

/-- A node comes in whose key is not tracked. -/
theorem Kept.insert (h : Kept v (lo ++ hi) N S) (hnew : v'.succ v.brk = hi.head?)
    (hbrk : v'.brk = v.brk + 1)
    (hkeep : ∀ a ≠ v.brk, v'.key a = v.key a ∧ v'.mark a = v.mark a
      ∧ v'.succ a = if a = lo.getLastD 0 then some v.brk else v.succ a)
    (hc' : v'.Chained (lo ++ v.brk :: hi)) (hS : ¬ S (v'.key v.brk)) :
    Kept v' (lo ++ v.brk :: hi) (fun a => N a ∨ a = v.brk) S := by
  have hne : ∀ a, N a → a ≠ v.brk := fun a ha => (h.alloc a ha).ne
  have hkey : ∀ a, N a → v'.key a = v.key a := fun a ha => (hkeep a (hne a ha)).1
  have hmem : ∀ a, a ∈ 0 :: (lo ++ hi) → a ∈ 0 :: (lo ++ v.brk :: hi) := fun a ha =>
    mem_insert_iff.mpr (.inr ha)
  have hp : N (lo.getLastD 0) := h.live _ (List.mem_append_left hi (getLastD_mem 0 lo))
  have hpn : v'.succ (lo.getLastD 0) = some v.brk := by
    rw [(hkeep _ (hne _ hp)).2.2, if_pos rfl]
  refine ⟨hc', fun a ha => ?_, fun a ha => ?_, fun a ha => ?_, fun a ha b hb => ?_,
    fun a ha s hs hSs hlt => ?_⟩
  · rcases mem_insert_iff.mp ha with rfl | ha
    · exact .inr rfl
    · exact .inl (h.live a ha)
  · rw [hbrk]
    rcases ha with ha | rfl
    · exact Nat.lt_succ_of_lt (h.alloc a ha)
    · exact Nat.lt_succ_self _
  · rcases ha with ha | rfl
    · rw [(hkeep a (hne a ha)).2.1]
      exact (h.frozen a ha).imp_left (hmem a)
    · exact .inl (by simp)
  · rcases ha with ha | rfl
    · rw [(hkeep a (hne a ha)).2.2] at hb
      split_ifs at hb with hap
      · cases hb
        exact ⟨.inr rfl, hap ▸ hc'.lt_behind⟩
      · obtain ⟨hNb, hlt⟩ := h.closed a ha b hb
        exact ⟨.inl hNb, (lt_congr (hkey a ha) (hkey b hNb)).mpr hlt⟩
    · have hb' : b ∈ hi := List.mem_of_mem_head? (hnew ▸ hb)
      exact ⟨.inl (h.live b (by simp [hb'])), (hc'.succ_lt (by simp) hb).2⟩
  · have hsn : s ≠ v.brk := by
      rintro rfl
      exact hS hSs
    have hs' : s ∈ lo ++ hi := by
      simp only [List.mem_append, List.mem_cons] at hs ⊢
      tauto
    have hNs : N s := h.live s (List.mem_cons_of_mem 0 hs')
    have hold : ∀ a, N a → v'.Lt a s → Reach v'.succ a s := fun a ha hlt =>
      h.reach_insert hnew (fun a ha => (hkeep a ha).2.2) ha (h.leads a ha s hs' (hkey s hNs ▸ hSs)
        ((lt_congr (hkey a ha) (hkey s hNs)).mp hlt))
    rcases ha with ha | rfl
    · exact hold a ha hlt
    · -- the new node is the first one behind its predecessor
      obtain heq | ⟨c, hc, hcs⟩ := (hold _ hp (hc'.lt_behind.trans hlt)).cases_head
      · exact absurd (heq ▸ hc'.lt_behind.trans hlt) View.Lt.irrefl
      · obtain rfl : v.brk = c := Option.some.inj (hpn.symm.trans hc)
        exact hcs

theorem Kept.mono (h : Kept v xs N S) {S' : ℕ → Prop} (hsub : ∀ k, S' k → S k) :
    Kept v xs N S' where
  chained := h.chained
  live := h.live
  alloc := h.alloc
  frozen := h.frozen
  closed := h.closed
  leads a ha s hs hS hlt := h.leads a ha s hs (hsub _ hS) hlt

/-- The nodes keep their keys. -/
theorem Kept.key_eq (h : Kept v xs N S) (hchange : Change v v' xs xs') (ha : N a) :
    v'.key a = v.key a := by
  cases hchange with
  | same _ _ _ hkey _ => exact congrFun hkey a
  | remove _ _ _ _ _ hkeep => exact (hkeep a).1
  | insert _ _ _ _ hkeep => exact (hkeep a (h.alloc a ha).ne).1

/-- The chains to the nodes that stay. -/
theorem Kept.reach_change (h : Kept v xs N S) (hchange : Change v v' xs xs') (ha : N a) {s : ℕ}
    (hs : s ∈ xs') (hreach : Reach v.succ a s) : Reach v'.succ a s := by
  cases hchange with
  | same _ hsucc _ _ _ => exact hsucc ▸ hreach
  | remove _ _ _ _ _ hkeep => exact h.reach_remove (fun a => (hkeep a).2.2) hs hreach
  | insert _ _ hnew _ hkeep =>
    exact h.reach_insert hnew (fun a ha => (hkeep a ha).2.2) ha hreach

/-- A node whose key was in the chain before is an old one. -/
theorem Kept.old (h : Kept v xs N S) (hchange : Change v v' xs xs') (hc' : v'.Chained xs')
    (hb : b ∈ xs') (hkey : ∃ s ∈ xs, v.key s = v'.key b) : b ∈ xs := by
  cases hchange with
  | same => exact hb
  | remove lo hi x _ _ _ =>
    simp only [List.mem_append, List.mem_cons] at hb ⊢
    tauto
  | insert lo hi hnew hbrk hkeep =>
    rw [List.mem_append, List.mem_cons] at hb
    rw [List.mem_append]
    rcases hb with hb | rfl | hb
    · exact .inl hb
    · -- the key would be there twice
      obtain ⟨s, hs, hsk⟩ := hkey
      have hsn : s < v.brk := h.chained.alloc s (List.mem_cons_of_mem 0 hs)
      have hsk' : v'.key s = v'.key v.brk := (hkeep s hsn.ne).1.trans hsk
      have hsorted := List.pairwise_append.mp hc'.sorted
      rcases List.mem_append.mp hs with hs | hs
      · exact absurd hsk' (hsorted.2.2 s hs _ List.mem_cons_self).ne
      · exact absurd hsk' (List.rel_of_pairwise_cons hsorted.2.1 hs).ne'
    · exact .inr hb

/-- **Every node that was in the chain keeps leading to the tracked ones.** -/
theorem Kept.change (h : Kept v xs N S) (hchange : Change v v' xs xs') (hc' : v'.Chained xs')
    (hS : ∀ k, S k → ∃ s ∈ xs, v.key s = k) :
    ∃ N', (∀ a, N a → N' a) ∧ Kept v' xs' N' S := by
  have hold : ∀ b ∈ xs', S (v'.key b) → b ∈ xs := fun b hb hSb => h.old hchange hc' hb (hS _ hSb)
  cases hchange with
  | same _ hsucc hmark hkey hbrk => exact ⟨N, fun _ ha => ha, h.same hsucc hmark hkey hbrk hc'⟩
  | remove lo hi x hbrk hmark hkeep =>
    exact ⟨N, fun _ ha => ha, h.remove hbrk hmark hkeep hc'⟩
  | insert lo hi hnew hbrk hkeep =>
    refine ⟨_, fun _ ha => .inl ha, h.insert hnew hbrk hkeep hc' fun hk => ?_⟩
    have hmem := hold v.brk (by simp) hk
    exact (h.chained.alloc v.brk (List.mem_cons_of_mem 0 hmem)).ne rfl

end Change

/-! ## The first unmarked node -/

/-- The loop over the marked nodes from `item` on. -/
def View.skip (v : View) : ℕ → Option ℕ → Option (Option ℕ)
  | 0, _ => none
  | _ + 1, none => some none
  | fuel + 1, some item => if v.mark item then v.skip fuel (v.succ item) else some (some item)

section Skip

variable {v : View} {xs : List ℕ} {N S : ℕ → Prop} {fuel : ℕ} {o r : Option ℕ}

theorem View.skip_mono (hr : v.skip fuel o = some r) {fuel' : ℕ} (hf : fuel ≤ fuel') :
    v.skip fuel' o = some r := by
  induction fuel generalizing o fuel' with
  | zero => cases hr
  | succ fuel ih =>
    obtain ⟨fuel', rfl⟩ := Nat.exists_eq_succ_of_ne_zero (Nat.ne_of_gt (Nat.zero_lt_of_lt hf))
    cases o with
    | none => exact hr
    | some y =>
      rw [View.skip] at hr ⊢
      split_ifs at hr ⊢ with hmark
      · exact ih hr (Nat.le_of_succ_le_succ hf)
      · exact hr

/-- Where the loop ends. -/
structure Kept.Skipped (v : View) (xs : List ℕ) (N : ℕ → Prop) (o r : Option ℕ) : Prop where
  live : ∀ x ∈ r, x ∈ 0 :: xs ∧ v.mark x = false ∧ ∃ y, o = some y ∧ (y = x ∨ v.Lt y x)
  leads : ∀ s ∈ xs, ∀ y, o = some y → Reach v.succ y s → ∃ x, r = some x ∧ Reach v.succ x s

theorem View.skip_reach {x y : ℕ} (hr : v.skip fuel (some y) = some (some x)) :
    Reach v.succ y x ∧ v.mark x = false := by
  induction fuel generalizing y with
  | zero => cases hr
  | succ fuel ih =>
    rw [View.skip] at hr
    split_ifs at hr with hmark
    · cases hy : v.succ y with
      | none =>
        rw [hy] at hr
        cases fuel <;> cases hr
      | some z =>
        rw [hy] at hr
        obtain ⟨hreach, hx⟩ := ih hr
        exact ⟨Reach.head hy hreach, hx⟩
    · cases hr
      exact ⟨Reach.refl _, by simpa using hmark⟩

theorem Kept.skip_spec (h : Kept v xs N S) (ho : ∀ y ∈ o, N y) (hr : v.skip fuel o = some r) :
    Kept.Skipped v xs N o r := by
  induction fuel generalizing o with
  | zero => cases hr
  | succ fuel ih =>
    cases o with
    | none =>
      cases hr
      exact ⟨fun x hx => (Option.not_mem_none x hx).elim,
        fun s _ y hy => (Option.some_ne_none y hy.symm).elim⟩
    | some y =>
      have hy : N y := ho y rfl
      rw [View.skip] at hr
      split_ifs at hr with hmark
      · have hsk := ih (fun z hz => (h.closed y hy z hz).1) hr
        refine ⟨fun x hx => ?_, fun s hs z hz hreach => ?_⟩
        · obtain ⟨hmem, hm, z, hz, hle⟩ := hsk.live x hx
          refine ⟨hmem, hm, y, rfl, .inr ?_⟩
          have hlt := (h.closed y hy z hz).2
          rcases hle with rfl | hle
          · exact hlt
          · exact hlt.trans hle
        · cases hz
          obtain rfl | ⟨c, hc, hcs⟩ := hreach.cases_head
          · rw [h.chained.unmarked y (List.mem_cons_of_mem 0 hs)] at hmark
            cases hmark
          · exact hsk.leads s hs c hc hcs
      · cases hr
        refine ⟨fun x hx => ?_, fun s hs z hz hreach => ?_⟩
        · cases hx
          have hm : v.mark y = false := by simpa using hmark
          exact ⟨(h.frozen y hy).resolve_right (by simp [hm]), hm, y, rfl, .inl rfl⟩
        · cases hz
          exact ⟨y, rfl, hreach⟩

/-- The nodes above a node, by address. -/
def View.above (v : View) (a : ℕ) : Finset ℕ :=
  (Finset.range v.brk).filter fun b => b ≠ 0 ∧ (a ≠ 0 → v.key a < v.key b)

theorem View.above_lt {a b : ℕ} (hb : b < v.brk) (hlt : v.Lt a b) :
    (v.above b).card < (v.above a).card := by
  refine Finset.card_lt_card ((Finset.ssubset_iff_of_subset fun c hc => ?_).mpr ⟨b, ?_, ?_⟩)
  · obtain ⟨hmem, hc⟩ := Finset.mem_filter.mp hc
    exact Finset.mem_filter.mpr ⟨hmem, hlt.trans hc⟩
  · exact Finset.mem_filter.mpr ⟨Finset.mem_range.mpr hb, hlt⟩
  · exact fun hb => View.Lt.irrefl (Finset.mem_filter.mp hb).2

/-- The loop ends: the keys increase on the way. -/
theorem Kept.skip_ends (h : Kept v xs N S) (ho : ∀ y ∈ o, N y) (hfuel : v.brk + 1 < fuel) :
    ∃ r, v.skip fuel o = some r := by
  have key : ∀ fuel o, (∀ y ∈ o, N y ∧ (v.above y).card + 1 < fuel) → 0 < fuel →
      ∃ r, v.skip fuel o = some r := by
    intro fuel
    induction fuel with
    | zero => exact fun _ _ hpos => absurd hpos (lt_irrefl 0)
    | succ fuel ih =>
      intro o ho _
      cases o with
      | none => exact ⟨none, rfl⟩
      | some y =>
        obtain ⟨hy, hcard⟩ := ho y rfl
        rw [View.skip]
        split_ifs with hmark
        · refine ih _ (fun z hz => ?_) (by omega)
          obtain ⟨hNz, hlt⟩ := h.closed y hy z hz
          have hless := View.above_lt (h.alloc z hNz) hlt
          exact ⟨hNz, by omega⟩
        · exact ⟨some y, rfl⟩
  refine key fuel o (fun y hy => ⟨ho y hy, ?_⟩) (by omega)
  have hcard : (v.above y).card ≤ (Finset.range v.brk).card :=
    Finset.card_le_card (Finset.filter_subset _ _)
  rw [Finset.card_range] at hcard
  omega

end Skip

/-! ## A place in front of the tracked nodes -/

/-- From `o` on, which is behind the `keys` and not before `start`, all tracked nodes are
reached that are not in `keys`. -/
structure Ahead (v : View) (xs : List ℕ) (N S : ℕ → Prop) (start : ℕ) (keys : List ℕ)
    (o : Option ℕ) : Prop where
  place : ∀ a ∈ o, N a ∧ a ≠ 0 ∧ start ≤ v.key a ∧ ∀ k ∈ keys, k < v.key a
  owed : ∀ x ∈ xs, start ≤ v.key x → S (v.key x) → v.key x ∉ keys →
    ∃ a, o = some a ∧ Reach v.succ a x

section Ahead

variable {v v' : View} {xs xs' : List ℕ} {N S : ℕ → Prop} {start x fuel : ℕ} {keys : List ℕ}
  {o r : Option ℕ}

/-- It stays in front of them. -/
theorem Ahead.change (ha : Ahead v xs N S start keys o) (h : Kept v xs N S)
    (hchange : Change v v' xs xs') (hc' : v'.Chained xs') {N' S' : ℕ → Prop}
    (hN : ∀ a, N a → N' a) (hS : ∀ k, S' k → S k ∧ ∃ s ∈ xs, v.key s = k) :
    Ahead v' xs' N' S' start keys o where
  place a ho := by
    obtain ⟨hNa, hne, hstart, hkeys⟩ := ha.place a ho
    rw [h.key_eq hchange hNa]
    exact ⟨hN a hNa, hne, hstart, hkeys⟩
  owed b hb hstart hSb hkey := by
    obtain ⟨hSb', hpresent⟩ := hS _ hSb
    have hmem : b ∈ xs := h.old hchange hc' hb hpresent
    have heq : v'.key b = v.key b := h.key_eq hchange (h.live b (List.mem_cons_of_mem 0 hmem))
    rw [heq] at hstart hSb' hkey
    obtain ⟨a, ho, hreach⟩ := ha.owed b hmem hstart hSb' hkey
    exact ⟨a, ho, h.reach_change hchange (ha.place a ho).1 hb hreach⟩

/-- When no unmarked node is left, nothing is owed. -/
theorem Ahead.skip_none (ha : Ahead v xs N S start keys o) (h : Kept v xs N S)
    (hskip : v.skip fuel o = some none) :
    ∀ x ∈ xs, start ≤ v.key x → S (v.key x) → v.key x ∈ keys := by
  intro x hx hstart hS
  by_contra hkey
  obtain ⟨a, ho, hreach⟩ := ha.owed x hx hstart hS hkey
  obtain ⟨y, hy, -⟩ := (h.skip_spec (fun y hy => (ha.place y hy).1) hskip).leads x hx a ho hreach
  cases hy

/-- The first unmarked node comes next, and the place moves behind it. -/
theorem Ahead.skip_some (ha : Ahead v xs N S start keys o) (h : Kept v xs N S)
    (hskip : v.skip fuel o = some (some x)) :
    x ∈ xs ∧ v.mark x = false ∧ start ≤ v.key x ∧ (∀ k ∈ keys, k < v.key x)
      ∧ Ahead v xs N S start (keys ++ [v.key x]) (v.succ x) := by
  have hsk := h.skip_spec (fun y hy => (ha.place y hy).1) hskip
  obtain ⟨hmem, hmark, y, ho, hle⟩ := hsk.live x rfl
  obtain ⟨-, hy, hstart, hkeys⟩ := ha.place y ho
  have hkey : x ≠ 0 ∧ v.key y ≤ v.key x := by
    rcases hle with rfl | hlt
    · exact ⟨hy, le_rfl⟩
    · exact ⟨hlt.1, (hlt.2 hy).le⟩
  have hx : x ∈ xs := (List.mem_cons.mp hmem).resolve_left hkey.1
  refine ⟨hx, hmark, hstart.trans hkey.2, fun k hk => (hkeys k hk).trans_le hkey.2,
    fun z hz => ?_, fun s hs hstarts hS hkeys' => ?_⟩
  · obtain ⟨hNz, hlt⟩ := h.closed x (h.live x hmem) z hz
    have hxz : v.key x < v.key z := hlt.2 hkey.1
    refine ⟨hNz, hlt.1, (hstart.trans hkey.2).trans hxz.le, fun k hk => ?_⟩
    rcases List.mem_append.mp hk with hk | hk
    · exact (hkeys k hk).trans (hkey.2.trans_lt hxz)
    · obtain rfl := List.mem_singleton.mp hk
      exact hxz
  · rw [List.mem_append, not_or] at hkeys'
    obtain ⟨a, hoa, hreach⟩ := ha.owed s hs hstarts hS hkeys'.1
    obtain ⟨x', hx', hxs⟩ := hsk.leads s hs a hoa hreach
    cases hx'
    obtain rfl | ⟨z, hz, hzs⟩ := hxs.cases_head
    · exact absurd (List.mem_singleton.mpr rfl) hkeys'.2
    · exact ⟨z, hz, hzs⟩

end Ahead

/-! ## A place on the last node that was passed -/

/-- `p` is the last of the `keys`, or before `start`, and all tracked nodes are behind it that
are not in `keys`. -/
structure Behind (v : View) (xs : List ℕ) (S : ℕ → Prop) (start : ℕ) (keys : List ℕ) (p : ℕ) :
    Prop where
  passed : ∀ k ∈ keys, p ≠ 0 ∧ k ≤ v.key p
  owed : ∀ x ∈ xs, start ≤ v.key x → S (v.key x) → v.key x ∉ keys → x ≠ p ∧ Reach v.succ p x

section Behind

variable {v v' : View} {xs xs' : List ℕ} {N S : ℕ → Prop} {start p q : ℕ} {keys : List ℕ}

theorem Behind.change (hb : Behind v xs S start keys p) (h : Kept v xs N S) (hp : N p)
    (hchange : Change v v' xs xs') (hc' : v'.Chained xs') {S' : ℕ → Prop}
    (hS : ∀ k, S' k → S k ∧ ∃ s ∈ xs, v.key s = k) : Behind v' xs' S' start keys p where
  passed k hk := by
    rw [h.key_eq hchange hp]
    exact hb.passed k hk
  owed x hx hstart hSx hkey := by
    obtain ⟨hSx', hpresent⟩ := hS _ hSx
    have hmem : x ∈ xs := h.old hchange hc' hx hpresent
    have heq : v'.key x = v.key x := h.key_eq hchange (h.live x (List.mem_cons_of_mem 0 hmem))
    rw [heq] at hstart hSx' hkey
    obtain ⟨hne, hreach⟩ := hb.owed x hmem hstart hSx' hkey
    exact ⟨hne, h.reach_change hchange hp hx hreach⟩

/-- Nothing is owed behind the last node. -/
theorem Behind.at_end (hb : Behind v xs S start keys p) (hnext : v.succ p = none) :
    ∀ x ∈ xs, start ≤ v.key x → S (v.key x) → v.key x ∈ keys := by
  intro x hx hstart hS
  by_contra hkey
  obtain ⟨hne, hreach⟩ := hb.owed x hx hstart hS hkey
  obtain rfl | ⟨z, hz, -⟩ := hreach.cases_head
  · exact hne rfl
  · exact absurd (hz.symm.trans hnext) (Option.some_ne_none z)

/-- Nothing is owed where only marked nodes are reached. -/
theorem Behind.all_marked (hb : Behind v xs S start keys p) (h : v.Chained xs)
    (hmark : ∀ a, Reach v.succ p a → v.mark a = true) :
    ∀ x ∈ xs, start ≤ v.key x → S (v.key x) → v.key x ∈ keys := by
  intro x hx hstart hS
  by_contra hkey
  obtain ⟨-, hreach⟩ := hb.owed x hx hstart hS hkey
  have hxm := hmark x hreach
  rw [h.unmarked x (List.mem_cons_of_mem 0 hx)] at hxm
  cases hxm

/-- The node behind one of the chain comes next. -/
theorem Behind.pass (hb : Behind v xs S start keys p) (h : v.Chained xs) (hp : p ∈ 0 :: xs)
    (hnext : v.succ p = some q) :
    q ∈ xs ∧ (∀ k ∈ keys, k < v.key q) ∧ Behind v xs S start (keys ++ [v.key q]) q := by
  obtain ⟨hq, hlt⟩ := h.succ_lt hp hnext
  have hkeys : ∀ k ∈ keys, k < v.key q := fun k hk =>
    (hb.passed k hk).2.trans_lt (hlt.2 (hb.passed k hk).1)
  refine ⟨hq, hkeys, fun k hk => ⟨hlt.1, ?_⟩, fun x hx hstart hS hkey => ?_⟩
  · rcases List.mem_append.mp hk with hk | hk
    · exact (hkeys k hk).le
    · exact (List.mem_singleton.mp hk).le
  · rw [List.mem_append, not_or] at hkey
    obtain ⟨hne, hreach⟩ := hb.owed x hx hstart hS hkey.1
    refine ⟨?_, ?_⟩
    · rintro rfl
      exact hkey.2 (List.mem_singleton.mpr rfl)
    · obtain rfl | ⟨z, hz, hzx⟩ := hreach.cases_head
      · exact absurd rfl hne
      · obtain rfl : q = z := Option.some.inj (hnext.symm.trans hz)
        exact hzx

end Behind

end FrozenChain
