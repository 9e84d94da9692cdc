import Mathlib

/-!
# Fields of a sequence of bits

An infinite sequence of bits `σ : ℕ → Bool`, read and written in fields: the field of `n` bits at
`off` is a number below `2 ^ n`, its first bit being the most significant one.
-/

namespace RainCall

open Nat

/-- The number in the field of `n` bits at `off`. -/
def fieldNat (σ : ℕ → Bool) (off : ℕ) : ℕ → ℕ
  | 0 => 0
  | n + 1 => 2 * fieldNat σ off n + (σ (off + n)).toNat

/-- The sequence with the low `n` bits of `v` in the field of `n` bits at `off`. -/
def writeField (σ : ℕ → Bool) (off n v : ℕ) : ℕ → Bool := fun i =>
  if off ≤ i ∧ i < off + n then v.testBit (off + n - 1 - i) else σ i

lemma fieldNat_lt (σ : ℕ → Bool) (off n : ℕ) : fieldNat σ off n < 2 ^ n := by
  induction n with
  | zero => exact one_pos
  | succ n ih =>
    rw [fieldNat]
    have := Bool.toNat_le (σ (off + n))
    omega

/-- The bits of a field, the first one being the most significant. -/
lemma testBit_fieldNat (σ : ℕ → Bool) (off n i : ℕ) :
    (fieldNat σ off n).testBit i = (decide (i < n) && σ (off + n - 1 - i)) := by
  induction n generalizing i with
  | zero => simp [fieldNat]
  | succ n ih =>
    rw [fieldNat]
    cases i with
    | zero => cases hσ : σ (off + n) <;> simp [hσ, testBit_zero]
    | succ i =>
      have hdiv : (2 * fieldNat σ off n + (σ (off + n)).toNat) / 2 = fieldNat σ off n := by
        have := Bool.toNat_le (σ (off + n))
        omega
      rw [testBit_succ, hdiv, ih]
      congr 2
      · simp
      · omega

/-- Two sequences agree on a field exactly if the fields have the same number. -/
lemma fieldNat_eq_iff {σ τ : ℕ → Bool} {off n : ℕ} :
    fieldNat σ off n = fieldNat τ off n ↔ ∀ i, off ≤ i → i < off + n → σ i = τ i := by
  constructor
  · intro h i hi hin
    have hbit := congrArg (testBit · (off + n - 1 - i)) h
    simp only [testBit_fieldNat] at hbit
    have hlt : off + n - 1 - i < n := by omega
    have hback : off + n - 1 - (off + n - 1 - i) = i := by omega
    simpa [hlt, hback] using hbit
  · intro h
    refine eq_of_testBit_eq fun i => ?_
    rw [testBit_fieldNat, testBit_fieldNat]
    by_cases hi : i < n
    · rw [h (off + n - 1 - i) (by omega) (by omega)]
    · simp [hi]

@[simp] lemma fieldNat_writeField (σ : ℕ → Bool) (off n v : ℕ) :
    fieldNat (writeField σ off n v) off n = v % 2 ^ n := by
  refine eq_of_testBit_eq fun i => ?_
  rw [testBit_fieldNat]
  by_cases hi : i < n
  · have hin : off ≤ off + n - 1 - i ∧ off + n - 1 - i < off + n := by omega
    have hback : off + n - 1 - (off + n - 1 - i) = i := by omega
    simp [writeField, hin, hback]
  · simp [hi]

/-- Only the low bits are written. -/
lemma writeField_mod (σ : ℕ → Bool) (off n v : ℕ) :
    writeField σ off n (v % 2 ^ n) = writeField σ off n v := by
  funext i
  unfold writeField
  split_ifs with h
  · have hlt : off + n - 1 - i < n := by omega
    simp [hlt]
  · rfl

/-- Writing changes the sequence exactly if it changes the number in the field. -/
lemma writeField_eq_self_iff {σ : ℕ → Bool} {off n v : ℕ} :
    writeField σ off n v = σ ↔ v % 2 ^ n = fieldNat σ off n := by
  constructor
  · intro h
    rw [← fieldNat_writeField σ, h]
  · intro h
    have hfield : fieldNat (writeField σ off n v) off n = fieldNat σ off n := by
      rw [fieldNat_writeField, h]
    funext i
    by_cases hi : off ≤ i ∧ i < off + n
    · exact fieldNat_eq_iff.mp hfield i hi.1 hi.2
    · rw [writeField, if_neg hi]

lemma writeField_succ (σ : ℕ → Bool) (off n v : ℕ) :
    writeField (Function.update σ off (v.testBit n)) (off + 1) n v =
      writeField σ off (n + 1) v := by
  funext i
  unfold writeField
  by_cases hoff : i = off
  · subst hoff
    simp
  · by_cases hin : off + 1 ≤ i ∧ i < off + 1 + n
    · rw [if_pos hin, if_pos (by omega)]
      congr 1
      omega
    · rw [if_neg hin, if_neg (by omega), Function.update_of_ne hoff]

lemma fieldNat_succ' (σ : ℕ → Bool) (off n : ℕ) :
    fieldNat σ off (n + 1) = (σ off).toNat * 2 ^ n + fieldNat σ (off + 1) n := by
  induction n with
  | zero => simp [fieldNat]
  | succ n ih =>
    rw [fieldNat, ih, fieldNat, show off + 1 + n = off + (n + 1) by omega]
    ring

/-- The fields of a shifted sequence. -/
lemma fieldNat_shift (σ : ℕ → Bool) (k off n : ℕ) :
    fieldNat (fun i => σ (k + i)) off n = fieldNat σ (k + off) n := by
  induction n with
  | zero => rfl
  | succ n ih => rw [fieldNat, fieldNat, ih, add_assoc]

/-! ### Bit operations as arithmetic -/

lemma testBit_highest {u n : ℕ} (hu : u < 2 ^ n) (hn : 0 < n) :
    u.testBit (n - 1) = decide (2 ^ n ≤ 2 * u) := by
  obtain ⟨m, rfl⟩ : ∃ m, n = m + 1 := ⟨n - 1, by omega⟩
  have hpos : 0 < 2 ^ m := Nat.two_pow_pos m
  rw [Nat.add_sub_cancel, Nat.testBit_eq_decide_div_mod_eq]
  congr 1
  by_cases hle : 2 ^ m ≤ u
  · have hdiv : u / 2 ^ m = 1 := by
      rw [Nat.div_eq_iff hpos]
      omega
    rw [hdiv]
    exact propext ⟨fun _ => by omega, fun _ => rfl⟩
  · have hdiv : u / 2 ^ m = 0 := Nat.div_eq_of_lt (by omega)
    rw [hdiv]
    exact propext ⟨fun h => absurd h (by decide), fun h => by omega⟩

lemma bmod_two_pow {u n : ℕ} (hu : u < 2 ^ n) (hn : 0 < n) :
    (u : ℤ).bmod (2 ^ n) = if u.testBit (n - 1) then (u : ℤ) - (2 ^ n : ℕ) else u := by
  obtain ⟨m, rfl⟩ : ∃ m, n = m + 1 := ⟨n - 1, by omega⟩
  rw [testBit_highest hu hn, Int.bmod_def, Int.emod_eq_of_lt (by omega) (by omega)]
  by_cases hle : 2 ^ m ≤ u
  · rw [if_neg (by omega), if_pos (by simp; omega)]
  · rw [if_pos (by omega), if_neg (by simp; omega)]

lemma or_high_bits {c n w : ℕ} (hn : n ≤ w) (hc : c < 2 ^ w) :
    c ||| ((2 ^ w - 1) <<< n % 2 ^ w) = c % 2 ^ n + (2 ^ w - 2 ^ n) := by
  have hmul : 2 ^ w - 2 ^ n = 2 ^ n * (2 ^ (w - n) - 1) := by
    rw [Nat.mul_sub, ← pow_add, Nat.add_sub_cancel' hn, Nat.mul_one]
  refine Nat.eq_of_testBit_eq fun j => ?_
  rw [Nat.add_comm, hmul, Nat.testBit_two_pow_mul_add _ (Nat.mod_lt _ (Nat.two_pow_pos n))]
  by_cases hj : j < n
  · simp [hj]
  · have hnj : n ≤ j := Nat.not_lt.mp hj
    by_cases hjw : j < w
    · have h1 : j - n < w - n := by omega
      have h2 : j - n < w := by omega
      simp [hnj, hjw, h1, h2]
    · have h1 : ¬ j - n < w - n := by omega
      have hcj : c.testBit j = false :=
        Nat.testBit_lt_two_pow (lt_of_lt_of_le hc (Nat.pow_le_pow_right (by omega) (by omega)))
      simp [hjw, h1, hcj]

end RainCall
