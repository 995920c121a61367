/-
# Calls that are decided late

The place of a call in the order of the calls may become known only after calls behind it
were decided.  What one may do to the order then:

* `Tracks.insert`, `Tracks.erase`, `Tracks.relabel` — the order of the calls still fits the
  history;
* `Spec.run_insert`, `Spec.run_erase`, `Spec.run_answered` — it is still an order of the
  sequential object;
* `Late` — what returned before a call stands before a place in the order, so that the call may
  be put there.

Nothing here refers to a particular program.
-/
import Ssr.Linearizability

namespace Linearizability

variable {ι ω ρ σ : Type*}

/-! ## The order of a list -/

section Before

variable {α : Type*} {l l' xs ys : List α} {a b c : α}

theorem Before.sublist (h : Before l a b) (hs : l.Sublist l') : Before l' a b := by
  obtain ⟨xs, ys, rfl, ha, hb⟩ := h
  obtain ⟨xs', ys', rfl, hx, hy⟩ := List.append_sublist_iff.mp hs
  exact ⟨xs', ys', rfl, hx.subset ha, hy.subset hb⟩

theorem before_insert (h : Before (xs ++ ys) a b) : Before (xs ++ c :: ys) a b :=
  h.sublist (List.Sublist.append_left (List.sublist_cons_self c ys) xs)

/-- Without an element the others stand as before. -/
theorem Before.of_insert (h : Before (xs ++ c :: ys) a b) (ha : a ≠ c) (hb : b ≠ c) :
    Before (xs ++ ys) a b := by
  obtain ⟨us, vs, heq, hau, hbv⟩ := h
  rcases List.append_eq_append_iff.mp heq with ⟨zs, rfl, hz⟩ | ⟨zs, rfl, hz⟩
  · cases zs with
    | nil =>
      rw [List.nil_append] at hz
      subst hz
      rw [List.append_nil] at hau
      exact ⟨xs, ys, rfl, hau, (List.mem_cons.mp hbv).resolve_left hb⟩
    | cons z zs =>
      obtain ⟨rfl, rfl⟩ := List.cons.inj hz
      refine ⟨xs ++ zs, vs, (List.append_assoc xs zs vs).symm, ?_, hbv⟩
      simpa [ha] using hau
  · subst hz
    refine ⟨us, zs ++ ys, List.append_assoc us zs ys, hau, ?_⟩
    simpa [hb] using hbv

end Before

/-! ## The order and the history -/

section Tracks

variable {h : List (Event ι ω ρ)} {log pre post : List (ι × ω × ρ)} {i c : ι} {o : ω} {r : ρ}

/-- Everything that returned before the call `i` stands before `c`. -/
def Late (h : List (Event ι ω ρ)) (log : List (ι × ω × ρ)) (i c : ι) : Prop :=
  ∀ j r o, Before h (.ret j r) (.call i o) → Before (log.map (·.1)) j c

/-- The calls of a log with one in the middle. -/
theorem map_insert (pre post : List (ι × ω × ρ)) (e : ι × ω × ρ) :
    (pre ++ e :: post).map (·.1) = pre.map (·.1) ++ e.1 :: post.map (·.1) := by
  rw [List.map_append, List.map_cons]

/-- A call that did not return is decided where `c` stands. -/
theorem Tracks.insert (ht : Tracks h (pre ++ post)) (hi : i ∉ (pre ++ post).map (·.1))
    (hc : .call i o ∈ h)
    (hlate : ∀ j r' o', Before h (.ret j r') (.call i o') → j ∈ pre.map (·.1)) :
    Tracks h (pre ++ (i, o, r) :: post) := by
  have hids := map_insert pre post (i, o, r)
  have hmap : (pre ++ post).map (·.1) = pre.map (·.1) ++ post.map (·.1) := List.map_append
  refine ⟨?_, fun j o' r' hj => ?_, fun j r' hj => ?_, fun j r' k o' hb hk => ?_⟩
  · rw [hids]
    have hn := ht.nodup
    rw [hmap] at hn hi
    exact (List.nodup_middle.mpr (List.nodup_cons.mpr ⟨hi, hn⟩))
  · rcases List.mem_append.mp hj with hj | hj
    · exact ht.called j o' r' (List.mem_append_left _ hj)
    · rcases List.mem_cons.mp hj with heq | hj
      · cases heq
        exact hc
      · exact ht.called j o' r' (List.mem_append_right _ hj)
  · have hd := ht.decided j r' hj
    rw [hmap] at hd
    rw [hids]
    simp only [List.mem_append, List.mem_cons] at hd ⊢
    exact hd.imp id Or.inr
  · rw [hids] at hk ⊢
    by_cases hki : k = i
    · subst hki
      exact ⟨_, _, rfl, hlate j r' o' hb, List.mem_cons_self⟩
    · refine before_insert (hmap ▸ ht.ordered j r' k o' hb ?_)
      rw [hmap]
      simpa [hki] using hk

/-- A call that did not return is left out again. -/
theorem Tracks.erase (ht : Tracks h (pre ++ (i, o, r) :: post)) (hret : ∀ r', .ret i r' ∉ h) :
    Tracks h (pre ++ post) := by
  have hids := map_insert pre post (i, o, r)
  have hmap : (pre ++ post).map (·.1) = pre.map (·.1) ++ post.map (·.1) := List.map_append
  have hn := ht.nodup
  rw [hids] at hn
  have hi := (List.nodup_cons.mp (List.nodup_middle.mp hn))
  refine ⟨hmap ▸ hi.2, fun j o' r' hj => ht.called j o' r' ?_, fun j r' hj => ?_,
    fun j r' k o' hb hk => ?_⟩
  · exact (List.Sublist.append_left (List.sublist_cons_self _ post) pre).subset hj
  · have hd := ht.decided j r' hj
    have hne : j ≠ i := by
      rintro rfl
      exact hret r' hj
    rw [hids] at hd
    rw [hmap]
    simpa [hne] using hd
  · have hki : k ≠ i := by
      rintro rfl
      exact hi.1 (hmap ▸ hk)
    have hji : j ≠ i := by
      rintro rfl
      exact hret r' hb.mem_left
    have hord := ht.ordered j r' k o' hb (by rw [hids]; rw [hmap] at hk; simpa [hki] using hk)
    rw [hids] at hord
    rw [hmap]
    exact hord.of_insert hji hki

/-- The answer of a call that did not return is corrected. -/
theorem Tracks.relabel {r' : ρ} (ht : Tracks h (pre ++ (i, o, r) :: post)) :
    Tracks h (pre ++ (i, o, r') :: post) := by
  have hids : (pre ++ (i, o, r') :: post).map (·.1) = (pre ++ (i, o, r) :: post).map (·.1) := by
    rw [map_insert, map_insert]
  refine ⟨hids ▸ ht.nodup, fun j o' s hj => ?_, fun j s hj => hids ▸ ht.decided j s hj,
    fun j s k o' hb hk => hids ▸ ht.ordered j s k o' hb (hids ▸ hk)⟩
  rcases List.mem_append.mp hj with hj | hj
  · exact ht.called j o' s (List.mem_append_left _ hj)
  · rcases List.mem_cons.mp hj with heq | hj
    · cases heq
      exact ht.called i o r (List.mem_append_right _ List.mem_cons_self)
    · exact ht.called j o' s (List.mem_append_right _ (List.mem_cons_of_mem _ hj))

/-- What a call decided last may rely on. -/
theorem late_concat (hd : ∀ j r, .ret j r ∈ h → j ∈ log.map (·.1)) (e : ι × ω × ρ) :
    Late h (log ++ [e]) i e.1 := by
  intro j r o hb
  rw [List.map_append]
  exact before_concat (hd j r hb.mem_left)

theorem Late.insert (hl : Late h (pre ++ post) i c) (e : ι × ω × ρ) :
    Late h (pre ++ e :: post) i c := by
  intro j r o hb
  have h' := hl j r o hb
  rw [List.map_append] at h'
  rw [map_insert]
  exact before_insert h'

theorem Late.erase {e : ι × ω × ρ} (hl : Late h (pre ++ e :: post) i c)
    (hret : ∀ r', .ret e.1 r' ∉ h) (hc : c ≠ e.1) : Late h (pre ++ post) i c := by
  intro j r o hb
  have h' := hl j r o hb
  rw [map_insert] at h'
  rw [List.map_append]
  refine h'.of_insert ?_ hc
  rintro rfl
  exact hret r hb.mem_left

theorem Late.relabel {r' : ρ} {j : ι} (hl : Late h (pre ++ (j, o, r) :: post) i c) :
    Late h (pre ++ (j, o, r') :: post) i c := by
  intro k s o' hb
  have h' := hl k s o' hb
  rw [map_insert] at h' ⊢
  exact h'

/-- Events after the call do not matter. -/
theorem Late.events {e : Event ι ω ρ} (hl : Late h log i c) (he : ∀ o, e ≠ .call i o) :
    Late (h ++ [e]) log i c := by
  intro j r o hb
  rcases before_concat_iff.mp hb with hb | ⟨-, heq⟩
  · exact hl j r o hb
  · exact absurd heq.symm (he o)

end Tracks

/-! ## The order and the object -/

section Run

variable [DecidableEq ρ] {S : Spec ω ρ σ} {s s' m : σ} {pre post log : List (ι × ω × ρ)} {i : ι}
  {o : ω} {r : ρ}

theorem Spec.run_append_eq_some :
    S.run s (pre ++ post) = some s' ↔ ∃ m, S.run s pre = some m ∧ S.run m post = some s' := by
  rw [Spec.run_append, Option.bind_eq_some_iff]

theorem Spec.run_cons_eq_some :
    S.run s ((i, o, r) :: log) = some s' ↔ (S.apply s o).1 = r ∧ S.run (S.apply s o).2 log = some s' := by
  simp only [Spec.run]
  split_ifs with h
  · simp [h]
  · simp [h]

/-- Every answer of a legal order is that of the object in the state reached there. -/
theorem Spec.run_answered (hrun : S.run s log = some s') (he : (i, o, r) ∈ log) :
    ∃ pre post m, log = pre ++ (i, o, r) :: post ∧ S.run s pre = some m ∧ (S.apply m o).1 = r
      ∧ S.run (S.apply m o).2 post = some s' := by
  obtain ⟨pre, post, rfl⟩ := List.append_of_mem he
  obtain ⟨m, hpre, hpost⟩ := Spec.run_append_eq_some.mp hrun
  obtain ⟨hr, hrest⟩ := Spec.run_cons_eq_some.mp hpost
  exact ⟨pre, post, m, rfl, hpre, hr, hrest⟩

/-- A call that changes nothing fits in wherever it has its answer. -/
theorem Spec.run_insert (hpre : S.run s pre = some m) (hpost : S.run m post = some s')
    (hm : S.apply m o = (r, m)) : S.run s (pre ++ (i, o, r) :: post) = some s' := by
  refine Spec.run_append_eq_some.mpr ⟨m, hpre, Spec.run_cons_eq_some.mpr ?_⟩
  rw [hm]
  exact ⟨rfl, hpost⟩

/-- A call that changed nothing may be left out. -/
theorem Spec.run_erase (hrun : S.run s (pre ++ (i, o, r) :: post) = some s')
    (hsame : ∀ m, (S.apply m o).1 = r → (S.apply m o).2 = m) : S.run s (pre ++ post) = some s' := by
  obtain ⟨m, hpre, hpost⟩ := Spec.run_append_eq_some.mp hrun
  obtain ⟨hr, hrest⟩ := Spec.run_cons_eq_some.mp hpost
  rw [hsame m hr] at hrest
  exact Spec.run_append_eq_some.mpr ⟨m, hpre, hrest⟩

end Run

end Linearizability
