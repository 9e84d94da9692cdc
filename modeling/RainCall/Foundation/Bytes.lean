import Mathlib

/-!
# Fixed-width numbers as bytes

A natural number written in a given number of bytes, in the two byte orders, and read back.
-/

namespace RainCall

/-- A string of bytes. -/
abbrev Bytes := List UInt8

instance Bytes.lawfulBEq : LawfulBEq Bytes := inferInstance

/-- The `k` low bytes of `n`, most significant first. -/
def beBytes : ℕ → ℕ → Bytes
  | 0, _ => []
  | k + 1, n => beBytes k (n / 256) ++ [UInt8.ofNat (n % 256)]

/-- The number a list of bytes stands for, most significant byte first. -/
def ofBeBytes (l : Bytes) : ℕ := l.foldl (fun acc b => acc * 256 + b.toNat) 0

/-- The `k` low bytes of `n`, least significant first. -/
def leBytes : ℕ → ℕ → Bytes
  | 0, _ => []
  | k + 1, n => UInt8.ofNat (n % 256) :: leBytes k (n / 256)

/-- The number a list of bytes stands for, least significant byte first. -/
def ofLeBytes : Bytes → ℕ
  | [] => 0
  | b :: l => b.toNat + 256 * ofLeBytes l

lemma toNat_ofNat_mod (n : ℕ) : (UInt8.ofNat (n % 256)).toNat = n % 256 := by
  simp

@[simp] lemma length_beBytes (k n : ℕ) : (beBytes k n).length = k := by
  induction k generalizing n with
  | zero => rfl
  | succ k ih => simp [beBytes, ih]

@[simp] lemma length_leBytes (k n : ℕ) : (leBytes k n).length = k := by
  induction k generalizing n with
  | zero => rfl
  | succ k ih => simp [leBytes, ih]

lemma ofBeBytes_append_singleton (l : Bytes) (b : UInt8) :
    ofBeBytes (l ++ [b]) = ofBeBytes l * 256 + b.toNat := by
  simp [ofBeBytes]

/-- Reading back a big-endian number that fits. -/
lemma ofBeBytes_beBytes {k n : ℕ} (h : n < 256 ^ k) : ofBeBytes (beBytes k n) = n := by
  induction k generalizing n with
  | zero =>
    obtain rfl : n = 0 := by simpa using h
    rfl
  | succ k ih =>
    have hdiv : n / 256 < 256 ^ k := Nat.div_lt_of_lt_mul (by rwa [pow_succ, Nat.mul_comm] at h)
    rw [beBytes, ofBeBytes_append_singleton, ih hdiv, toNat_ofNat_mod]
    exact Nat.div_add_mod' n 256

lemma ofLeBytes_leBytes {k n : ℕ} (h : n < 256 ^ k) : ofLeBytes (leBytes k n) = n := by
  induction k generalizing n with
  | zero =>
    obtain rfl : n = 0 := by simpa using h
    rfl
  | succ k ih =>
    have hdiv : n / 256 < 256 ^ k := Nat.div_lt_of_lt_mul (by rwa [pow_succ, Nat.mul_comm] at h)
    rw [leBytes, ofLeBytes, ih hdiv, toNat_ofNat_mod]
    exact Nat.mod_add_div n 256

/-! ### Signed numbers -/

/-- The `k` low bytes of an integer in two's complement, least significant first. -/
def leSignedBytes (k : ℕ) (v : ℤ) : Bytes := leBytes k (v % (256 ^ k : ℕ)).toNat

/-- The integer a list of bytes stands for in two's complement, least significant byte first. -/
def ofLeSignedBytes (l : Bytes) : ℤ := (ofLeBytes l : ℤ).bmod (256 ^ l.length)

@[simp] lemma length_leSignedBytes (k : ℕ) (v : ℤ) : (leSignedBytes k v).length = k :=
  length_leBytes k _

/-- Reading back an integer that fits. -/
lemma ofLeSignedBytes_leSignedBytes {k : ℕ} {v : ℤ} (hge : -(256 ^ k : ℕ) ≤ v * 2)
    (hlt : v * 2 < (256 ^ k : ℕ)) : ofLeSignedBytes (leSignedBytes k v) = v := by
  have hpos : 0 < 256 ^ k := by positivity
  have hnn : 0 ≤ v % (256 ^ k : ℕ) := Int.emod_nonneg _ (by exact_mod_cast hpos.ne')
  have hbound : (v % (256 ^ k : ℕ)).toNat < 256 ^ k := by
    omega
  rw [ofLeSignedBytes, length_leSignedBytes, leSignedBytes, ofLeBytes_leBytes hbound,
    Int.toNat_of_nonneg hnn, Int.emod_bmod]
  exact Int.bmod_eq_of_le_mul_two hge hlt

lemma beBytes_succ_eq_cons (k n : ℕ) :
    beBytes (k + 1) n = UInt8.ofNat (n / 256 ^ k % 256) :: beBytes k n := by
  induction k generalizing n with
  | zero => simp [beBytes]
  | succ k ih =>
    rw [beBytes, ih, Nat.div_div_eq_div_mul, ← pow_succ']
    rfl

end RainCall
