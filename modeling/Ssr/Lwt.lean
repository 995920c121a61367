/-
# The trace buffer of a thread (`src/runtime/lwt.c`)

`lwt_trace_i` puts a record into the ring of its thread, and `dump_buffer` goes over the
ring.  The ring has a head and no count.

* `head` is a `uint32_t`; `LWT_BUFFER_SIZE` is a power of two below `2 ^ 32`, so that the
  position of a record is not affected when the head wraps around.
* The time stamp of a record is what `rdtsc` gives.
* What `dump_record` prints of a record depends on the trace levels; here is which records
  it is called with.
-/
import Mathlib.Data.List.Basic
import Mathlib.Tactic

namespace Lwt

/-! ## The ring -/

/-- `LWT_BUFFER_SCALE`. -/
def bufferScale : ℕ := 20

/-- `LWT_BUFFER_SIZE`. -/
def bufferSize : ℕ := 2 ^ bufferScale

/-- `lwt_record_t`. -/
structure Record where
  timestamp : ℕ
  format : ℕ
  value1 : ℕ
  value2 : ℕ
  deriving DecidableEq, Repr

/-- `lwt_buffer_t`. -/
structure Buffer where
  head : ℕ
  x : ℕ → Record

/-- `lwt_thread_init`: the records are what the memory held before. -/
def lwtThreadInit (junk : ℕ → Record) : Buffer := ⟨0, junk⟩

/-- `lwt_trace_i`. -/
def lwtTraceI (tb : Buffer) (r : Record) : Buffer where
  head := (tb.head + 1) % 2 ^ 32
  x := Function.update tb.x (tb.head % bufferSize) r

/-- `dump_buffer`: the records for which it calls `dump_record`. -/
def dumpBuffer (tb : Buffer) : List Record :=
  (if bufferSize < tb.head then
      (List.range' (tb.head % bufferSize) (bufferSize - tb.head % bufferSize)).map tb.x
    else [])
    ++ (List.range (tb.head % bufferSize)).map tb.x

/-- The ring after some records. -/
def traced (junk : ℕ → Record) (rs : List Record) : Buffer :=
  rs.foldl lwtTraceI (lwtThreadInit junk)

/-- The newest records, as many as there is room for, the oldest of them first. -/
def newest (rs : List Record) : List Record := rs.drop (rs.length - bufferSize)

/-! ## What the ring holds -/

section Traced

variable {junk : ℕ → Record} {rs : List Record} {i j : ℕ}

theorem bufferSize_pos : 0 < bufferSize := Nat.two_pow_pos _

theorem bufferSize_dvd : bufferSize ∣ 2 ^ 32 := Nat.pow_dvd_pow 2 (by decide)

theorem traced_append (junk : ℕ → Record) (rs : List Record) (r : Record) :
    traced junk (rs ++ [r]) = lwtTraceI (traced junk rs) r := by
  rw [traced, List.foldl_append]
  rfl

theorem traced_head (junk : ℕ → Record) (rs : List Record) :
    (traced junk rs).head = rs.length % 2 ^ 32 := by
  induction rs using List.reverseRecOn with
  | nil => rfl
  | append_singleton rs r ih =>
    rw [traced_append, lwtTraceI, ih, Nat.mod_add_mod, List.length_append, List.length_singleton]

/-- The head names the position of the next record. -/
theorem traced_head_mod (junk : ℕ → Record) (rs : List Record) :
    (traced junk rs).head % bufferSize = rs.length % bufferSize := by
  rw [traced_head, Nat.mod_mod_of_dvd _ bufferSize_dvd]

/-- Positions of records that are less than a round apart. -/
theorem mod_ne_mod_of_lt (hij : i < j) (hj : j < i + bufferSize) :
    i % bufferSize ≠ j % bufferSize := by
  intro heq
  have hdvd : bufferSize ∣ j - i := (Nat.modEq_iff_dvd' hij.le).mp heq
  have hle := Nat.le_of_dvd (by omega) hdvd
  omega

/-- **The ring holds the newest records**, each at its position. -/
theorem traced_record (junk : ℕ → Record) (rs : List Record) (hi : i < rs.length)
    (hnew : rs.length ≤ i + bufferSize) :
    rs[i]? = some ((traced junk rs).x (i % bufferSize)) := by
  induction rs using List.reverseRecOn with
  | nil => cases hi
  | append_singleton rs r ih =>
    rw [List.length_append, List.length_singleton] at hi hnew
    have hx : (traced junk (rs ++ [r])).x
        = Function.update (traced junk rs).x (rs.length % bufferSize) r := by
      rw [traced_append, ← traced_head_mod junk rs]
      rfl
    rw [hx]
    rcases Nat.lt_succ_iff_lt_or_eq.mp hi with hlt | rfl
    · rw [Function.update_of_ne (mod_ne_mod_of_lt hlt (by omega)), List.getElem?_append_left hlt]
      exact ih hlt (by omega)
    · rw [Function.update_self, List.getElem?_concat_length]

/-- The records from the `i`-th on, as they lie behind each other in the ring. -/
theorem drop_eq_map (junk : ℕ → Record) (rs : List Record) (hnew : rs.length ≤ i + bufferSize) :
    rs.drop i
      = (List.range' i (rs.length - i)).map fun j => (traced junk rs).x (j % bufferSize) := by
  apply List.ext_getElem?
  intro j
  rw [List.getElem?_drop]
  by_cases hj : i + j < rs.length
  · rw [traced_record junk rs hj (by omega), List.getElem?_map, List.getElem?_range' (by omega),
      Option.map_some, one_mul]
  · rw [List.getElem?_eq_none (by omega), List.getElem?_eq_none (by simp; omega)]

end Traced

/-! ## What the dump shows -/

section Dump

variable {junk : ℕ → Record} {rs : List Record}

theorem length_newest (rs : List Record) : (newest rs).length = min rs.length bufferSize := by
  rw [newest, List.length_drop]
  omega

/-- The number of records that are shown. -/
theorem length_dumpBuffer (tb : Buffer) : (dumpBuffer tb).length
    = if bufferSize < tb.head then bufferSize else tb.head % bufferSize := by
  have hlt := Nat.mod_lt tb.head bufferSize_pos
  unfold dumpBuffer
  split_ifs
  · simp only [List.length_append, List.length_map, List.length_range', List.length_range]
    omega
  · simp

/-- The ring is not full. -/
theorem dump_of_lt (h : rs.length < bufferSize) : dumpBuffer (traced junk rs) = newest rs := by
  have hhead : (traced junk rs).head = rs.length := by
    rw [traced_head]
    exact Nat.mod_eq_of_lt (h.trans_le (Nat.le_of_dvd (by decide) bufferSize_dvd))
  rw [dumpBuffer, if_neg (by omega), List.nil_append, traced_head_mod, Nat.mod_eq_of_lt h, newest,
    drop_eq_map junk rs (by omega), show rs.length - bufferSize = 0 by omega, Nat.sub_zero,
    List.range_eq_range']
  refine List.map_congr_left fun j hj => ?_
  have hlt : j < rs.length := by simpa using hj
  rw [Nat.mod_eq_of_lt (hlt.trans h)]

/-- The ring has been gone round, and the head shows it. -/
theorem dump_of_head (h : bufferSize < rs.length % 2 ^ 32) :
    dumpBuffer (traced junk rs) = newest rs := by
  have hpos := bufferSize_pos
  have hle : bufferSize < rs.length := h.trans_le (Nat.mod_le _ _)
  obtain ⟨m, hm⟩ : ∃ m, rs.length = m + bufferSize := ⟨rs.length - bufferSize, by omega⟩
  have hhead : (traced junk rs).head % bufferSize = m % bufferSize := by
    rw [traced_head_mod, hm, Nat.add_mod_right]
  have hlt := Nat.mod_lt m hpos
  have hdiv := Nat.div_add_mod m bufferSize
  rw [dumpBuffer, if_pos (by rwa [traced_head]), hhead, newest, drop_eq_map junk rs (by omega),
    show rs.length - bufferSize = m by omega, show rs.length - m = bufferSize by omega]
  -- the oldest record is at `m % bufferSize`; the rest of the ring holds the records up to
  -- the end of that round
  have hsplit : List.range' m bufferSize = List.range' m (bufferSize - m % bufferSize)
      ++ List.range' (m + (bufferSize - m % bufferSize)) (m % bufferSize) := by
    rw [List.range'_append_1]
    congr 1
    omega
  rw [hsplit, List.map_append]
  congr 1
  · refine List.ext_getElem (by simp) fun k hk _ => ?_
    simp only [List.length_map, List.length_range'] at hk
    simp only [List.getElem_map, List.getElem_range', one_mul]
    rw [Nat.add_mod, Nat.mod_eq_of_lt (show k < bufferSize by omega),
      Nat.mod_eq_of_lt (show m % bufferSize + k < bufferSize by omega)]
  · refine List.ext_getElem (by simp) fun k hk _ => ?_
    simp only [List.length_map, List.length_range] at hk
    simp only [List.getElem_map, List.getElem_range, List.getElem_range', one_mul]
    have hround : m + (bufferSize - m % bufferSize) = bufferSize * (m / bufferSize + 1) := by
      rw [Nat.mul_add, Nat.mul_one]
      omega
    rw [hround, Nat.mul_add_mod, Nat.mod_eq_of_lt (by omega)]

/-- **When the dump shows the newest records in order**: exactly when the ring is not full, or
the head tells that it has been gone round. -/
theorem dump_newest_iff (junk : ℕ → Record) (rs : List Record) :
    dumpBuffer (traced junk rs) = newest rs
      ↔ rs.length < bufferSize ∨ bufferSize < rs.length % 2 ^ 32 := by
  constructor
  · intro hdump
    by_contra hnot
    rw [not_or, not_lt, not_lt] at hnot
    have hlen := congrArg List.length hdump
    rw [length_dumpBuffer, length_newest, traced_head, if_neg (not_lt.mpr hnot.2),
      Nat.min_eq_right hnot.1] at hlen
    have hlt := Nat.mod_lt (rs.length % 2 ^ 32) bufferSize_pos
    omega
  · rintro (h | h)
    · exact dump_of_lt h
    · exact dump_of_head h

/-- A record of zeros. -/
def blank : Record := ⟨0, 0, 0, 0⟩

/-- A full ring is shown as empty where the head is at its beginning and was not seen to wrap. -/
theorem dump_eq_nil {m : ℕ} (hmod : m % bufferSize = 0) (hwrap : m % 2 ^ 32 ≤ bufferSize)
    (hfull : bufferSize ≤ m) : dumpBuffer (traced (fun _ => blank) (List.replicate m blank)) = []
      ∧ (newest (List.replicate m blank)).length = bufferSize := by
  constructor
  · apply List.eq_nil_of_length_eq_zero
    rw [length_dumpBuffer, traced_head, List.length_replicate, if_neg (by omega),
      Nat.mod_mod_of_dvd _ bufferSize_dvd, hmod]
  · rw [length_newest, List.length_replicate, Nat.min_eq_right hfull]

/-- **A ring that has just become full is shown as empty**, and so is one whose head has come
back to 0. -/
theorem dump_of_full :
    (dumpBuffer (traced (fun _ => blank) (List.replicate bufferSize blank)) = []
      ∧ (newest (List.replicate bufferSize blank)).length = bufferSize)
    ∧ dumpBuffer (traced (fun _ => blank) (List.replicate (2 ^ 32) blank)) = []
      ∧ (newest (List.replicate (2 ^ 32) blank)).length = bufferSize := by
  constructor
  · apply dump_eq_nil <;> decide
  · apply dump_eq_nil <;> decide

end Dump

end Lwt
