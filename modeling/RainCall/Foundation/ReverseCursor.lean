import Mathlib

/-!
# Reverse binary cursors

A table of `2 ^ e` buckets is scanned with a cursor `v` of `w` bits whose low `e` bits select the
bucket. The cursor is advanced by incrementing the *reversed* word above the bits that are not part
of the mask. In terms of the position `cursorPos v`, the value of the reversed word, the buckets of
a table of `2 ^ e` buckets are the blocks of length `2 ^ (w - e)`, and advancing moves to the end of
the current block. Blocks of a smaller table are unions of blocks of a larger one, which is what
makes the cursor meaningful when the table is resized.
-/

namespace RainCall

open BitVec Nat

variable {w : ℕ}

/-- The place of a cursor, or of a hash, in the order of the scan. -/
def cursorPos (v : BitVec w) : ℕ := v.reverse.toNat

/-- The mask of a table with `2 ^ e` buckets. -/
def cursorMask (w e : ℕ) : BitVec w := BitVec.ofNat w (2 ^ e - 1)

/-- Increment the reversed cursor on the bits of the mask. -/
def cursorAdvance (e : ℕ) (v : BitVec w) : BitVec w :=
  ((v ||| ~~~ cursorMask w e).reverse + 1).reverse

/-- The end of the block of length `2 ^ (w - e)` that contains position `c`. -/
def blockEnd (w e c : ℕ) : ℕ := (c / 2 ^ (w - e) + 1) * 2 ^ (w - e)

lemma cursorPos_lt (v : BitVec w) : cursorPos v < 2 ^ w := v.reverse.isLt

lemma testBit_cursorPos (v : BitVec w) (i : ℕ) :
    (cursorPos v).testBit i = (decide (i < w) && v.toNat.testBit (w - 1 - i)) := by
  rw [cursorPos, testBit_toNat, getLsbD_reverse, getMsbD_eq_getLsbD,
    testBit_toNat]

@[simp] lemma cursorPos_zero : cursorPos 0#w = 0 := by
  refine eq_of_testBit_eq fun i => ?_
  simp [testBit_cursorPos]

lemma cursorPos_reverse (v : BitVec w) : cursorPos v.reverse = v.toNat := by
  rw [cursorPos, reverse_reverse_eq]

variable {e : ℕ}

/-- Two words select the same bucket iff their positions lie in the same block. -/
lemma mod_two_pow_eq_iff (he : e ≤ w) (u v : BitVec w) :
    u.toNat % 2 ^ e = v.toNat % 2 ^ e ↔
      cursorPos u / 2 ^ (w - e) = cursorPos v / 2 ^ (w - e) := by
  have hbits : ∀ x : BitVec w, ∀ i < e,
      (cursorPos x / 2 ^ (w - e)).testBit i = x.toNat.testBit (e - 1 - i) := by
    intro x i hi
    rw [testBit_div_two_pow, testBit_cursorPos]
    have h1 : i + (w - e) < w := by omega
    have h2 : w - 1 - (i + (w - e)) = e - 1 - i := by omega
    simp [h1, h2]
  constructor
  · intro h
    refine eq_of_testBit_eq fun i => ?_
    by_cases hi : i < e
    · have := congrArg (fun n => n.testBit (e - 1 - i)) h
      rw [hbits u i hi, hbits v i hi]
      simpa [show e - 1 - i < e by omega] using this
    · simp [testBit_div_two_pow, testBit_cursorPos, show ¬ i + (w - e) < w by omega]
  · intro h
    refine eq_of_testBit_eq fun i => ?_
    by_cases hi : i < e
    · have := congrArg (fun n => n.testBit (e - 1 - i)) h
      simp only [hbits _ _ (show e - 1 - i < e by omega)] at this
      rw [show e - 1 - (e - 1 - i) = i by omega] at this
      simp [this]
    · simp [hi]

lemma testBit_cursorMask (he : e ≤ w) (i : ℕ) :
    (cursorMask w e).getLsbD i = decide (i < e) := by
  rw [cursorMask, getLsbD_ofNat, testBit_two_pow_sub_one]
  by_cases hi : i < e
  · simp [show i < w by omega]
  · simp [hi]

/-- Advancing moves to the end of the block, modulo the word size. -/
lemma cursorPos_advance (he : e ≤ w) (v : BitVec w) :
    cursorPos (cursorAdvance e v) = blockEnd w e (cursorPos v) % 2 ^ w := by
  have hset : (v ||| ~~~ cursorMask w e).reverse.toNat =
      2 ^ (w - e) * (cursorPos v / 2 ^ (w - e)) + (2 ^ (w - e) - 1) := by
    rw [Nat.two_pow_add_eq_or_of_lt (Nat.sub_lt (Nat.two_pow_pos _) Nat.one_pos)]
    refine Nat.eq_of_testBit_eq fun i => ?_
    rw [← cursorPos, testBit_cursorPos, testBit_toNat, getLsbD_or, getLsbD_not,
      testBit_cursorMask he, Nat.testBit_or, Nat.testBit_two_pow_mul,
      Nat.testBit_div_two_pow, testBit_cursorPos, testBit_toNat]
    by_cases hi : i < w - e
    · simp [hi, show i < w by omega, show w - 1 - i < w by omega, show ¬ w - 1 - i < e by omega]
    · by_cases hiw : i < w
      · simp [hi, hiw, show w - e ≤ i by omega, show i - (w - e) + (w - e) = i by omega,
          show w - 1 - i < e by omega]
      · simp [hiw, show w - e ≤ i by omega]
  rw [cursorAdvance, cursorPos_reverse, toNat_add, hset, blockEnd,
    show (1 : BitVec w) = 1#w from rfl, toNat_ofNat]
  have hpos := Nat.two_pow_pos (w - e)
  rw [Nat.add_mod_mod, Nat.add_assoc, Nat.sub_add_cancel hpos]
  congr 1
  ring

/-! ### Blocks -/

lemma lt_blockEnd (w e c : ℕ) : c < blockEnd w e c :=
  Nat.lt_mul_of_div_lt (Nat.lt_succ_self _) (Nat.two_pow_pos _)

lemma two_pow_dvd_blockEnd (w e c : ℕ) : 2 ^ (w - e) ∣ blockEnd w e c := dvd_mul_left _ _

lemma blockEnd_div (w e c : ℕ) : blockEnd w e c / 2 ^ (w - e) = c / 2 ^ (w - e) + 1 :=
  Nat.mul_div_cancel _ (Nat.two_pow_pos _)

lemma blockEnd_le_two_pow {c : ℕ} (he : e ≤ w) (hc : c < 2 ^ w) : blockEnd w e c ≤ 2 ^ w := by
  have hdiv : c / 2 ^ (w - e) < 2 ^ e := by
    rw [Nat.div_lt_iff_lt_mul (Nat.two_pow_pos _), ← pow_add, Nat.add_sub_cancel' he]
    exact hc
  calc (c / 2 ^ (w - e) + 1) * 2 ^ (w - e) ≤ 2 ^ e * 2 ^ (w - e) := Nat.mul_le_mul_right _ hdiv
    _ = 2 ^ w := by rw [← pow_add, Nat.add_sub_cancel' he]

/-- A position not before `c` lies in the block of `c` or behind it. -/
lemma same_block_or_le {c r : ℕ} (h : c ≤ r) :
    r / 2 ^ (w - e) = c / 2 ^ (w - e) ∨ blockEnd w e c ≤ r := by
  rcases (Nat.div_le_div_right h).eq_or_lt with heq | hlt
  · exact .inl heq.symm
  · right
    exact (Nat.mul_le_mul_right _ hlt).trans (Nat.div_mul_le_self r _)

/-- Blocks of the larger table are contained in blocks of the smaller one. -/
lemma blockEnd_le_blockEnd {e0 e1 : ℕ} (h : e0 ≤ e1) (c : ℕ) :
    blockEnd w e1 c ≤ blockEnd w e0 c := by
  obtain ⟨m, hm⟩ := (pow_dvd_pow 2 (by omega : w - e1 ≤ w - e0)).trans (two_pow_dvd_blockEnd w e0 c)
  rw [hm, Nat.mul_comm, blockEnd]
  refine Nat.mul_le_mul_right _ ?_
  rw [Nat.succ_le_iff, Nat.div_lt_iff_lt_mul (Nat.two_pow_pos _), Nat.mul_comm, ← hm]
  exact lt_blockEnd w e0 c

/-- A position between `c` and the end of its block lies in the block, not at its start. -/
lemma inside_block {c n : ℕ} (hc : c < n) (hn : n < blockEnd w e c) :
    n / 2 ^ (w - e) = c / 2 ^ (w - e) ∧ ¬ 2 ^ (w - e) ∣ n := by
  have hdiv : n / 2 ^ (w - e) = c / 2 ^ (w - e) := by
    rcases same_block_or_le hc.le with h | h
    · exact h
    · omega
  refine ⟨hdiv, fun hdvd => ?_⟩
  have h1 := Nat.div_mul_cancel hdvd
  have h2 := Nat.div_mul_le_self c (2 ^ (w - e))
  rw [hdiv] at h1
  omega

/-! ### The bits between two masks -/

lemma two_pow_dvd_iff_testBit {n x : ℕ} : 2 ^ n ∣ x ↔ ∀ i < n, x.testBit i = false := by
  rw [dvd_iff_mod_eq_zero]
  constructor
  · intro h i hi
    have := congrArg (fun y => y.testBit i) h
    simpa [testBit_mod_two_pow, hi] using this
  · intro h
    refine eq_of_testBit_eq fun i => ?_
    by_cases hi : i < n
    · simp [h i hi]
    · simp [hi]

/-- A cursor at the start of a block is below the number of buckets. -/
lemma toNat_lt_of_dvd_cursorPos {v : BitVec w} (h : 2 ^ (w - e) ∣ cursorPos v) :
    v.toNat < 2 ^ e := by
  rw [two_pow_dvd_iff_testBit] at h
  refine Nat.lt_pow_two_of_testBit _ fun i hi => ?_
  by_cases hiw : i < w
  · have hbit := h (w - 1 - i) (by omega)
    rw [testBit_cursorPos, show w - 1 - (w - 1 - i) = i by omega] at hbit
    simpa [show w - 1 - i < w by omega] using hbit
  · exact Nat.testBit_lt_two_pow (v.isLt.trans_le (Nat.pow_le_pow_right (by omega) (by omega)))

/-- The test for the end of the inner loop of a scan over two tables: no bit between the masks is
set iff the position is the start of a block of the smaller table. -/
lemma and_maskDiff_eq_zero_iff {e0 e1 : ℕ} (h01 : e0 ≤ e1) (h1 : e1 ≤ w) {v : BitVec w}
    (hv : 2 ^ (w - e1) ∣ cursorPos v) :
    v &&& (cursorMask w e0 ^^^ cursorMask w e1) = 0#w ↔ 2 ^ (w - e0) ∣ cursorPos v := by
  have hmask : ∀ i, (cursorMask w e0 ^^^ cursorMask w e1).getLsbD i =
      (decide (i < e0) ^^ decide (i < e1)) := by
    intro i
    rw [getLsbD_xor, testBit_cursorMask (h01.trans h1), testBit_cursorMask h1]
  rw [two_pow_dvd_iff_testBit] at hv ⊢
  constructor
  · intro h i hi
    by_cases hi' : i < w - e1
    · exact hv i hi'
    · have := congrArg (fun x => x.getLsbD (w - 1 - i)) h
      simp only [getLsbD_and, hmask] at this
      rw [testBit_cursorPos, testBit_toNat]
      simp only [show ¬ w - 1 - i < e0 by omega, show w - 1 - i < e1 by omega, decide_false,
        decide_true, Bool.false_xor, Bool.and_true] at this
      simp [this]
  · intro h
    refine eq_of_getLsbD_eq fun i hi => ?_
    rw [getLsbD_and, hmask]
    by_cases hi0 : i < e0
    · simp [hi0, show i < e1 by omega]
    · have := h (w - 1 - i) (by omega)
      rw [testBit_cursorPos, testBit_toNat, show w - 1 - (w - 1 - i) = i by omega] at this
      simp only [show w - 1 - i < w by omega, decide_true, Bool.true_and] at this
      simp [this]

end RainCall
