import Mathlib

/-!
# Machine integers

The casts to 64-bit integers as functions on numbers.
-/

namespace RainCall

/-- The cast to `uint64_t`. -/
def toU64 (x : ℤ) : ℕ := (x % 2 ^ 64).toNat

/-- The cast to `int64_t`. -/
def toI64 (x : ℤ) : ℤ := x.bmod (2 ^ 64)

/-- The cast to `int64_t` in numbers. -/
lemma toI64_eq (x : ℤ) : toI64 x = if x % 18446744073709551616 < 9223372036854775808
    then x % 18446744073709551616 else x % 18446744073709551616 - 18446744073709551616 := by
  unfold toI64
  rw [Int.bmod_def]
  norm_num

lemma toI64_of_mem {x : ℤ} (hge : -2 ^ 63 ≤ x) (hlt : x < 2 ^ 63) : toI64 x = x := by
  rw [toI64_eq]
  split_ifs <;> omega

lemma toU64_mod (x : ℤ) {bits : ℕ} (hbits : bits ≤ 64) :
    ((toU64 x % 2 ^ bits : ℕ) : ℤ) = x % 2 ^ bits := by
  have hnonneg : 0 ≤ x % 2 ^ 64 := Int.emod_nonneg _ (by norm_num)
  have hdvd : (2 : ℤ) ^ bits ∣ 2 ^ 64 := pow_dvd_pow 2 hbits
  push_cast
  rw [toU64, Int.toNat_of_nonneg hnonneg, Int.emod_emod_of_dvd x hdvd]

lemma toU64_lt (x : ℤ) : toU64 x < 2 ^ 64 := by
  unfold toU64
  omega

/-- A number of type `long long`. -/
def IsLongLong (v : ℤ) : Prop := -2 ^ 63 ≤ v ∧ v < 2 ^ 63

instance (v : ℤ) : Decidable (IsLongLong v) := inferInstanceAs (Decidable (_ ∧ _))

lemma IsLongLong.natAbs_lt {v : ℤ} (h : IsLongLong v) : v.natAbs < 2 ^ 64 := by
  have := h.1
  have := h.2
  omega

end RainCall
