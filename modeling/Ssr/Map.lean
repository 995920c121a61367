/-
# The map interface (`src/map/map.h`, `src/runtime/common.h`)

The constants and the key comparison that the map implementations share.
-/
import Mathlib.Data.Int.Init
import Mathlib.Tactic

namespace Map

/-- `DOES_NOT_EXIST`. -/
def doesNotExist : ℕ := 0

/-- `CAS_EXPECT_DOES_NOT_EXIST`. -/
def expectDoesNotExist : ℕ := 0

/-- `CAS_EXPECT_EXISTS`, that is `-1` as a `map_val_t`. -/
def expectExists : ℕ := 2 ^ 64 - 1

/-- `CAS_EXPECT_WHATEVER`, that is `-2` as a `map_val_t`. -/
def expectWhatever : ℕ := 2 ^ 64 - 2

/-- `int d = item->key - key`: the 64-bit difference truncated to 32 bits. -/
def keyDiff (a b : ℕ) : ℤ := Int.bmod ((a : ℤ) - b) (2 ^ 32)

/-- Keys that lie less than `2 ^ 31` apart are compared by their difference. -/
theorem keyDiff_of_near {a b : ℕ} (hab : a < b + 2 ^ 31) (hba : b < a + 2 ^ 31) :
    keyDiff a b = (a : ℤ) - b := by
  unfold keyDiff
  apply Int.bmod_eq_of_le <;> omega

@[simp] theorem keyDiff_self (a : ℕ) : keyDiff a a = 0 := by
  simp [keyDiff]

end Map
