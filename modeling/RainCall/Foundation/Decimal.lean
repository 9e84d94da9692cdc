import RainCall.Foundation.Bytes

/-!
# Decimal text

The decimal text of a natural number, as a list of ASCII bytes without leading zeros, and how it
grows when a digit is appended.
-/

namespace RainCall

open List Nat

def digitChar (d : ℕ) : UInt8 := UInt8.ofNat (48 + d)

def IsDigit (c : UInt8) : Prop := 48 ≤ c ∧ c ≤ 57

instance (c : UInt8) : Decidable (IsDigit c) := inferInstanceAs (Decidable (_ ∧ _))

def digitVal (c : UInt8) : ℕ := c.toNat - 48

/-- The decimal text of a number, most significant digit first. -/
def decimal (n : ℕ) : Bytes :=
  if n = 0 then [digitChar 0] else (Nat.digits 10 n).reverse.map digitChar

variable {c : UInt8} {d v : ℕ}

lemma digitVal_lt (h : IsDigit c) : digitVal c < 10 := by
  have hle : c.toNat ≤ 57 := UInt8.le_iff_toNat_le.mp h.2
  simp only [digitVal]
  omega

lemma digitChar_digitVal (h : IsDigit c) : digitChar (digitVal c) = c := by
  have hle : 48 ≤ c.toNat := UInt8.le_iff_toNat_le.mp h.1
  rw [digitChar, digitVal, Nat.add_sub_cancel' hle, UInt8.ofNat_toNat]

lemma toNat_digitChar (h : d < 10) : (digitChar d).toNat = 48 + d := by
  rw [digitChar]
  exact mod_eq_of_lt (by omega)

lemma digitVal_digitChar (h : d < 10) : digitVal (digitChar d) = d := by
  rw [digitVal, toNat_digitChar h, Nat.add_sub_cancel_left]

lemma isDigit_digitChar (h : d < 10) : IsDigit (digitChar d) := by
  rw [IsDigit, UInt8.le_iff_toNat_le, UInt8.le_iff_toNat_le, toNat_digitChar h]
  exact ⟨Nat.le_add_right _ _, Nat.add_le_add_left (Nat.le_of_lt_succ h) 48⟩

lemma isDigit_of_mem_decimal {n : ℕ} (h : c ∈ decimal n) : IsDigit c := by
  unfold decimal at h
  split_ifs at h
  · rw [mem_singleton.mp h]
    exact isDigit_digitChar (by decide)
  · obtain ⟨d, hd, rfl⟩ := mem_map.mp h
    exact isDigit_digitChar (digits_lt_base (by decide) (mem_reverse.mp hd))

/-- The digits of a number below ten. -/
lemma decimal_of_lt_ten {n : ℕ} (h : n < 10) : decimal n = [digitChar n] := by
  unfold decimal
  split_ifs with hzero
  · rw [hzero]
  · rw [digits_of_lt 10 n hzero h]
    rfl

/-- Appending a digit multiplies by ten and adds the digit. -/
lemma decimal_mul_ten_add (hv : 0 < v) (hd : d < 10) :
    decimal (v * 10 + d) = decimal v ++ [digitChar d] := by
  have hne : v * 10 + d ≠ 0 := by omega
  unfold decimal
  rw [if_neg hne, if_neg hv.ne', add_comm, mul_comm,
    digits_add 10 (by decide) d v hd (.inr hv.ne')]
  simp

/-- Splitting the last digit off. -/
lemma decimal_div_ten (hv : 10 ≤ v) :
    decimal v = decimal (v / 10) ++ [digitChar (v % 10)] := by
  have h := decimal_mul_ten_add (v := v / 10) (d := v % 10) (by omega) (mod_lt _ (by decide))
  rwa [div_add_mod' v 10] at h

lemma length_decimal {k : ℕ} (hk : 10 ^ k ≤ v) (hlt : v < 10 ^ (k + 1)) :
    (decimal v).length = k + 1 := by
  have hv : v ≠ 0 := (lt_of_lt_of_le (by positivity) hk).ne'
  rw [decimal, if_neg hv, length_map, length_reverse,
    length_digits 10 v (by decide) hv, log_eq_of_pow_le_of_lt_pow hk hlt]

lemma length_decimal_pos (v : ℕ) : 0 < (decimal v).length := by
  unfold decimal
  split_ifs with hv
  · exact one_pos
  · rw [length_map, length_reverse, length_digits 10 v (by decide) hv]
    exact succ_pos _

lemma length_decimal_le {k : ℕ} (hk : k ≠ 0) (hv : v < 10 ^ k) : (decimal v).length ≤ k := by
  unfold decimal
  split_ifs with hzero
  · exact one_le_iff_ne_zero.mpr hk
  · rw [length_map, length_reverse]
    exact (digits_length_le_iff (by decide) v).mpr hv

lemma length_decimal_div (k : ℕ) (hv : 10 ^ k ≤ v) :
    (decimal v).length = k + (decimal (v / 10 ^ k)).length := by
  have hpos : 0 < 10 ^ k := by positivity
  have hquot : 1 ≤ v / 10 ^ k := (one_le_div_iff hpos).mpr hv
  have hlog := log_div_base_pow 10 v k
  have hle : k ≤ log 10 v := le_log_of_pow_le (by decide) hv
  rw [decimal, decimal, if_neg (by omega), if_neg (by omega), length_map,
    length_reverse, length_map, length_reverse,
    length_digits 10 v (by decide) (by omega),
    length_digits 10 _ (by decide) (by omega)]
  omega

end RainCall
