/-
# Ordered maps of strings

`ns_cmp` and the maps that sort by it: `ordered_iff` says for which strings the comparison is an
order, and that lists and skiplists are sorted maps of strings in every run in which no
search is misled.
-/
import Ssr.ListStrings
import Ssr.SkipListStrings

open Sequential

namespace StringKeys

/-- For three strings the comparison reads both, tells equal from unequal, changes its sign with
the order of the arguments and is transitive exactly when the first string is not the longer one
and no memory behind a string misleads it; it is a total order exactly on the strings that do not
mislead one another.  A list, and a skiplist, whose searches are not misled by the first string
behind the place of a key stays sorted, and finds every key that it holds. -/
theorem ordered_iff (text : ℕ ↪ List Byte) :
    (∀ a b c : Nstring, a.len < 2 ^ 31 → b.len < 2 ^ 31 → c.len < 2 ^ 31 →
      (Orders a b c ↔ a.len ≤ b.len ∧ ¬ Misled b a
        ∧ ¬ (a.bytes ≤ b.bytes ∧ Misled b c ∧ c.bytes < a.bytes ∧ ¬ Misled a c)))
    ∧ (∀ S : Set Nstring, (∀ s ∈ S, s.len < 2 ^ 31) →
      (TotallyOrders S ↔ ∀ a ∈ S, ∀ b ∈ S, ¬ Misled a b))
    ∧ (∀ rs : List Request,
      RunMeets (LinkedList.execBy text)
        (fun h r => r.Valid text ∧ LinkedList.Unmisled text h r) LinkedList.init.shared rs →
      RunRefines (LinkedList.execBy text) specCall (LinkedList.Heap.Keeps text)
        LinkedList.init.shared (fun _ => none) rs)
    ∧ ∀ rs : List (Request × ℕ),
      RunMeets (SkipList.execBy text)
        (fun h r => r.1.Valid text ∧ r.2 < 32 ∧ SkipList.Unmisled text h r.1)
        SkipList.init.shared rs →
      RunRefines (SkipList.execBy text) (fun m r => specCall m r.1) (SkipList.Heap.Keeps text)
        SkipList.init.shared (fun _ => none) rs :=
  ⟨fun _ _ _ ha hb hc => orders_iff ha hb hc, fun _ hS => totallyOrders_iff hS,
    fun _ => LinkedList.strings_refine, fun _ => SkipList.strings_refine⟩

/-- The digits of a number as a string. -/
def digits : ℕ ↪ List Byte where
  toFun k := (Nat.digits 256 k).map (Fin.ofNat 256)
  inj' k l h := by
    have hval : ∀ n, ((Nat.digits 256 n).map (Fin.ofNat 256)).map Fin.val = Nat.digits 256 n := by
      intro n
      rw [List.map_map]
      refine (List.map_congr_left fun d hd => ?_).trans (List.map_id _)
      exact Nat.mod_eq_of_lt (Nat.digits_lt_base (by decide) hd)
    have heq := congrArg (List.map Fin.val) h
    rw [hval, hval] at heq
    exact Nat.digits_inj_iff.mp heq

/-- The strings `ab`, `a` and `b` come in, with zeros behind them; `a` goes out, and the others are
looked up and changed. -/
def zeroRun : List Request :=
  [.cas 25185 Map.expectDoesNotExist 5, .cas 97 Map.expectDoesNotExist 6,
    .cas 98 Map.expectDoesNotExist 7, .get 25185, .remove 97, .get 97,
    .cas 25185 Map.expectWhatever 8, .get 98].map fun c => ⟨c, fun _ => 0⟩

/-- The strings `a`, `ab` and `b` with zeros behind them. -/
def zeroStrings : List Nstring := [[97], [97, 98], [98]].map fun l => ofBytes l fun _ => 0

/-- The keys of the run are short strings. -/
theorem length_digits_lt {k : ℕ} (hk : k = 97 ∨ k = 98 ∨ k = 25185) :
    (digits k).length < 2 ^ 31 := by
  show ((Nat.digits 256 k).map (Fin.ofNat 256)).length < 2 ^ 31
  rcases hk with rfl | rfl | rfl <;> norm_num

/-- Every call of the run is valid. -/
theorem zeroRun_valid : ∀ r ∈ zeroRun, r.Valid digits ∧ r.behind = fun _ => 0 := by
  intro r hr
  obtain ⟨c, hc, rfl⟩ := List.mem_map.mp hr
  clear hr
  refine ⟨⟨length_digits_lt ?_, ?_⟩, rfl⟩
  · revert c
    decide
  · revert c
    simp only [List.mem_cons, List.not_mem_nil, or_false, forall_eq_or_imp, forall_eq]
    exact ⟨by decide, by decide, by decide, trivial, trivial, trivial, by decide, trivial⟩

/-- The theorem at strings of one and two letters, and at runs with three keys. -/
theorem ordered_iff_zeroRun :
    Orders (ofBytes [97] fun _ => 0) (ofBytes [97, 98] fun _ => 0) (ofBytes [98] fun _ => 0)
    ∧ TotallyOrders {s | s ∈ zeroStrings}
    ∧ RunRefines (LinkedList.execBy digits) specCall (LinkedList.Heap.Keeps digits)
      LinkedList.init.shared (fun _ => none) zeroRun
    ∧ RunRefines (SkipList.execBy digits) (fun m r => specCall m r.1) (SkipList.Heap.Keeps digits)
      SkipList.init.shared (fun _ => none) (zeroRun.map fun r => (r, 31)) := by
  obtain ⟨htriple, hset, hlist, hskip⟩ := ordered_iff digits
  refine ⟨(htriple _ _ _ (by decide) (by decide) (by decide)).mpr
    ⟨by decide, not_misled_ofBytes _ _, fun h => not_misled_ofBytes _ _ h.2.1⟩,
    (hset _ ?_).mpr ?_, hlist _ ?_, hskip _ ?_⟩
  · intro s hs
    obtain ⟨l, hl, rfl⟩ := List.mem_map.mp hs
    clear hs
    revert l
    decide
  · intro a _ b hb
    obtain ⟨l, -, rfl⟩ := List.mem_map.mp hb
    exact not_misled_ofBytes a l
  · exact runMeets_of_forall (fun _ r hr => ⟨hr.1, fun _ b _ _ _ _ => not_misledBy_of_zero hr.2 _⟩)
      _ zeroRun_valid
  · refine runMeets_of_forall
      (P := fun r => (r.1.Valid digits ∧ r.1.behind = fun _ => 0) ∧ r.2 < 32)
      (fun _ r hr => ⟨hr.1.1, hr.2, fun _ _ b _ _ _ _ => not_misledBy_of_zero hr.1.2 _⟩) _ ?_
    intro r hr
    obtain ⟨q, hq, rfl⟩ := List.mem_map.mp hr
    exact ⟨zeroRun_valid q hq, Nat.lt_succ_self 31⟩

/-- The string `ab`. -/
def stringAb : Nstring := ⟨2, fun i => if i = 0 then 97 else 98⟩

/-- The string `a` with a `z` behind it. -/
def stringA : Nstring := ⟨1, fun i => if i = 0 then 97 else 122⟩

/-- Names for the two strings. -/
def abText (k : ℕ) : List Byte := if k = 1 then [97, 98] else [97]

/-- Each of `ab` and `a` is before the other.  A list that holds `ab` stores `a` behind it, and does
not find it any more. -/
theorem not_ordered_ab : ¬ Orders stringAb stringA stringA
    ∧ nsCmp stringAb stringA < 0 ∧ nsCmp stringA stringAb < 0
    ∧ (calls (LinkedList.execBy abText) 20 LinkedList.init.shared
        [⟨.cas 1 Map.expectDoesNotExist 5, fun _ => 0⟩,
          ⟨.cas 2 Map.expectDoesNotExist 6, fun _ => 122⟩, ⟨.get 2, fun _ => 0⟩]).map (·.1)
      = some [Map.doesNotExist, Map.doesNotExist, Map.doesNotExist] := by
  refine ⟨fun h => ?_, by decide, by decide, by decide⟩
  exact absurd (inBounds_iff.mp h.inBounds) (by decide)

end StringKeys
