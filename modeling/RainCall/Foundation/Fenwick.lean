import Mathlib

/-!
# Binary indexed trees

Node `i ≥ 1` of a binary indexed tree over `a 0, a 1, …` holds the sum of `a` over the `lowbit i`
positions below `i`. A prefix sum walks from `i` to `i - lowbit i`, and the nodes above one position
are reached from the first of them by the steps `i ↦ i + lowbit i`.
-/

namespace RainCall

open Nat

/-- The lowest set bit of `i`, as `i & -i` on words of `w` bits. -/
def lowbit (w i : ℕ) : ℕ := i &&& (2 ^ w - i)

/-- Node `i` holds position `p`. -/
def FenwickCovers (w i p : ℕ) : Prop := i - lowbit w i ≤ p ∧ p < i

instance (w i p : ℕ) : Decidable (FenwickCovers w i p) := inferInstanceAs (Decidable (_ ∧ _))

section

variable {w k i j p : ℕ}

/-- The lowest set bit of an odd multiple of `2 ^ k` is `2 ^ k`. -/
lemma lowbit_two_pow_mul {m : ℕ} (h : 2 ^ k * (2 * m + 1) < 2 ^ w) :
    lowbit w (2 ^ k * (2 * m + 1)) = 2 ^ k := by
  have hpos := Nat.two_pow_pos k
  have hsplit : 2 ^ k * (2 * m + 1) = 2 ^ (k + 1) * m + 2 ^ k := by ring
  rw [hsplit] at h ⊢
  rw [lowbit]
  generalize hy : 2 ^ (k + 1) * m + (2 ^ k - 1) = y
  have hx : 2 ^ (k + 1) * m + 2 ^ k = y + 1 := by omega
  have hlt : 2 ^ k < 2 ^ (k + 1) := Nat.pow_lt_pow_right (by omega) (by omega)
  refine Nat.eq_of_testBit_eq fun b => ?_
  have hw : 2 ^ k < 2 ^ w := by omega
  rw [Nat.testBit_and, hx, Nat.testBit_two_pow_sub_succ (by omega), ← hx, ← hy,
    Nat.testBit_two_pow_mul_add _ hlt, Nat.testBit_two_pow_mul_add _ (by omega),
    Nat.testBit_two_pow]
  have hkw : k < w := (Nat.pow_lt_pow_iff_right (by omega)).mp hw
  by_cases hb : b < k + 1
  · rw [if_pos hb, if_pos hb]
    by_cases hbk : k = b
    · subst hbk
      simp [hkw]
    · simp [hbk]
  · rw [if_neg hb, if_neg hb]
    have hne : k ≠ b := by omega
    simp only [hne]
    cases Nat.testBit m (b - (k + 1)) <;> simp

/-- A positive number is an odd multiple of a power of two. -/
lemma exists_two_pow_mul (hi : 0 < i) : ∃ k m, i = 2 ^ k * (2 * m + 1) := by
  obtain ⟨k, n, ⟨m, hm⟩, hn⟩ := exists_eq_two_pow_mul_odd hi.ne'
  exact ⟨k, m, by rw [hn, hm]⟩

/-- The lowest set bit of a positive number and the number above it. -/
lemma lowbit_spec (hi : 0 < i) (hw : i < 2 ^ w) :
    ∃ k m, lowbit w i = 2 ^ k ∧ i = 2 ^ k * (2 * m + 1) := by
  obtain ⟨k, m, rfl⟩ := exists_two_pow_mul hi
  exact ⟨k, m, lowbit_two_pow_mul hw, rfl⟩

lemma lowbit_pos (hi : 0 < i) (hw : i < 2 ^ w) : 0 < lowbit w i := by
  obtain ⟨k, m, hk, -⟩ := lowbit_spec hi hw
  rw [hk]
  exact Nat.two_pow_pos k

lemma lowbit_le (hi : 0 < i) (hw : i < 2 ^ w) : lowbit w i ≤ i := by
  obtain ⟨k, m, hk, him⟩ := lowbit_spec hi hw
  rw [hk]
  exact le_of_dvd hi ⟨_, him⟩

/-- The lowest set bit of `r + 2 ^ k` when `r` is a multiple of `2 ^ (k + 1)`. -/
lemma lowbit_add_two_pow {r : ℕ} (hr : 2 ^ (k + 1) ∣ r) (hw : r + 2 ^ k < 2 ^ w) :
    lowbit w (r + 2 ^ k) = 2 ^ k := by
  obtain ⟨m, rfl⟩ := hr
  have hsplit : 2 ^ (k + 1) * m + 2 ^ k = 2 ^ k * (2 * m + 1) := by ring
  rw [hsplit] at hw ⊢
  exact lowbit_two_pow_mul hw

/-- The lowest set bit of a number is at most that of a sum with a multiple of a larger power. -/
lemma lowbit_add_le {r : ℕ} (hi : 2 ^ k ∣ i) (hr : 0 < r) (hrk : r < 2 ^ k) (hw : i + r < 2 ^ w) :
    lowbit w (i + r) ≤ r := by
  obtain ⟨e, s, hes⟩ := exists_two_pow_mul hr
  have hek : e < k := by
    have hle : 2 ^ e ≤ r := hes ▸ Nat.le_mul_of_pos_right _ (by omega)
    exact (Nat.pow_lt_pow_iff_right (a := 2) (by omega)).mp (by omega)
  obtain ⟨m, rfl⟩ := hi
  obtain ⟨d, rfl⟩ : ∃ d, k = e + 1 + d := ⟨k - (e + 1), by omega⟩
  have hsum : 2 ^ (e + 1 + d) * m + r = 2 ^ e * (2 * (2 ^ d * m + s) + 1) := by
    rw [hes]
    ring
  rw [hsum] at hw ⊢
  rw [lowbit_two_pow_mul hw, hes]
  exact Nat.le_mul_of_pos_right _ (by omega)

namespace FenwickCovers

/-- The first node of a position. -/
lemma first (hw : p + 1 < 2 ^ w) : FenwickCovers w (p + 1) p := by
  have hpos : 0 < lowbit w (p + 1) := lowbit_pos (succ_pos p) hw
  exact ⟨by omega, lt_succ_self p⟩

lemma next (h : FenwickCovers w i p) (hw : i + lowbit w i < 2 ^ w) :
    FenwickCovers w (i + lowbit w i) p := by
  obtain ⟨hle, hlt⟩ := h
  have hi : 0 < i := by omega
  obtain ⟨k, m, hk, him⟩ := lowbit_spec hi (show i < 2 ^ w by omega)
  rw [hk] at hle hw ⊢
  have hnext : i + 2 ^ k = 2 ^ (k + 1) * (m + 1) := by
    rw [him]
    ring
  obtain ⟨e, s, hes⟩ := exists_two_pow_mul (Nat.succ_pos m)
  have hnext' : i + 2 ^ k = 2 ^ (k + 1 + e) * (2 * s + 1) := by
    rw [hnext, show m + 1 = 2 ^ e * (2 * s + 1) from hes]
    ring
  have hlow : lowbit w (i + 2 ^ k) = 2 ^ (k + 1 + e) := by
    rw [hnext'] at hw ⊢
    exact lowbit_two_pow_mul hw
  have hge : 2 * 2 ^ k ≤ 2 ^ (k + 1 + e) := by
    rw [← pow_succ']
    exact Nat.pow_le_pow_right (by omega) (by omega)
  rw [FenwickCovers, hlow]
  exact ⟨by omega, by omega⟩

lemma not_between (h : FenwickCovers w i p) (hij : i < j) (hj : j < i + lowbit w i)
    (hw : j < 2 ^ w) : ¬ FenwickCovers w j p := by
  obtain ⟨hle, hlt⟩ := h
  obtain ⟨k, m, hk, him⟩ := lowbit_spec (show 0 < i by omega) (show i < 2 ^ w by omega)
  obtain ⟨r, rfl⟩ : ∃ r, j = i + r := ⟨j - i, by omega⟩
  have hlow : lowbit w (i + r) ≤ r := lowbit_add_le (Dvd.intro _ him.symm) (by omega) (by omega) hw
  rintro ⟨hcov, -⟩
  omega

end FenwickCovers

end

end RainCall
