import Mathlib

/-!
# Search loops

Three loops that recur in array code, each on a predicate of positions: the binary search for the
first position where a predicate fails, the backward scan for the last position where one holds, and
the doubling of a size while it is too small.
-/

namespace RainCall

/-! ### Binary search -/

/-- `while (lo < hi) { mid = lo + (hi - lo) / 2; if (below(mid)) lo = mid + 1; else hi = mid; }`,
cut off after `fuel` iterations. -/
def lowerBoundLoop (below : ℕ → Bool) : ℕ → ℕ → ℕ → ℕ
  | 0, lo, _ => lo
  | fuel + 1, lo, hi =>
    if lo < hi then
      let mid := lo + (hi - lo) / 2
      if below mid then lowerBoundLoop below fuel (mid + 1) hi
      else lowerBoundLoop below fuel lo mid
    else lo

/-- The first of the positions `0, ..., n` that is not `below`. -/
def lowerBound (below : ℕ → Bool) (n : ℕ) : ℕ := lowerBoundLoop below n 0 n

variable {n : ℕ} {p : ℕ → Bool}

/-- The interval `[lo, hi)` shrinks around the boundary of `below`. -/
lemma lowerBoundLoop_spec {below : ℕ → Bool} {fuel lo hi : ℕ}
    (hmono : ∀ i j, i ≤ j → j < n → below j → below i) (hlo : lo ≤ hi) (hhi : hi ≤ n)
    (hfuel : hi - lo ≤ fuel) (hl : ∀ i < lo, below i) (hh : ∀ i, hi ≤ i → i < n → ¬ below i) :
    lowerBoundLoop below fuel lo hi ≤ n ∧ (∀ i < lowerBoundLoop below fuel lo hi, below i) ∧
      ∀ i, lowerBoundLoop below fuel lo hi ≤ i → i < n → ¬ below i := by
  induction fuel generalizing lo hi with
  | zero =>
    obtain rfl : lo = hi := by omega
    exact ⟨hhi, hl, hh⟩
  | succ fuel ih =>
    simp only [lowerBoundLoop]
    split_ifs with hlt hbelow
    · refine ih (by omega) hhi (by omega) (fun i hi' => ?_) hh
      exact hmono i _ (by omega) (by omega) hbelow
    · refine ih (by omega) (by omega) (by omega) hl fun i hi' hin hbi => hbelow ?_
      exact hmono _ i hi' hin hbi
    · obtain rfl : lo = hi := by omega
      exact ⟨hhi, hl, hh⟩

/-- The binary search separates the positions that are `below` from those that are not. -/
lemma lowerBound_spec {below : ℕ → Bool} (hmono : ∀ i j, i ≤ j → j < n → below j → below i) :
    lowerBound below n ≤ n ∧ (∀ i < lowerBound below n, below i) ∧
      ∀ i, lowerBound below n ≤ i → i < n → ¬ below i :=
  lowerBoundLoop_spec hmono (Nat.zero_le _) le_rfl (Nat.sub_le _ _) (by simp)
    (fun i h1 h2 => absurd h2 (by omega))

/-! ### Backward scan -/

/-- `for (i = n - 1; i >= 0; i--) if (p(i)) return i;` -/
def scanDown (p : ℕ → Bool) : ℕ → Option ℕ
  | 0 => none
  | n + 1 => if p n then some n else scanDown p n

lemma scanDown_eq_some {i : ℕ} (h : scanDown p n = some i) :
    i < n ∧ p i ∧ ∀ j, p j → j < n → j ≤ i := by
  induction n with
  | zero => simp [scanDown] at h
  | succ n ih =>
    rw [scanDown] at h
    split_ifs at h with hp
    · obtain rfl : n = i := by simpa using h
      exact ⟨Nat.lt_succ_self n, hp, fun j _ hj => by omega⟩
    · obtain ⟨h1, h2, h3⟩ := ih h
      refine ⟨by omega, h2, fun j hj hjn => ?_⟩
      have hne : j ≠ n := fun heq => hp (heq ▸ hj)
      exact h3 j hj (by omega)

lemma scanDown_eq_none (h : scanDown p n = none) : ∀ j < n, ¬ p j := by
  induction n with
  | zero => simp
  | succ n ih =>
    rw [scanDown] at h
    split_ifs at h with hp
    intro j hj
    rcases Nat.lt_succ_iff_lt_or_eq.mp hj with hlt | rfl
    · exact ih h j hlt
    · exact hp

/-- The scan finds a position if there is one. -/
lemma exists_scanDown {j : ℕ} (hj : j < n) (hp : p j) :
    ∃ i, scanDown p n = some i := by
  cases h : scanDown p n with
  | none => exact absurd hp (scanDown_eq_none h j hj)
  | some i => exact ⟨i, rfl⟩

/-! ### Doubling -/

/-- `while (p(x)) x <<= 1;`, cut off after `fuel` iterations. -/
def doubleWhile (p : ℕ → Bool) : ℕ → ℕ → ℕ
  | 0, x => x
  | fuel + 1, x => if p x then doubleWhile p fuel (2 * x) else x

/-- The loop multiplies by a power of two; all smaller multiples satisfy the loop condition. -/
lemma doubleWhile_eq (p : ℕ → Bool) (fuel x : ℕ) :
    ∃ j ≤ fuel, doubleWhile p fuel x = 2 ^ j * x ∧ (∀ i < j, p (2 ^ i * x)) ∧
      (j < fuel → ¬ p (2 ^ j * x)) := by
  induction fuel generalizing x with
  | zero => exact ⟨0, le_rfl, by simp [doubleWhile], by simp, by simp⟩
  | succ fuel ih =>
    rw [doubleWhile]
    split_ifs with hp
    · obtain ⟨j, hj, heq, hbefore, hafter⟩ := ih (2 * x)
      have hpow : ∀ i, 2 ^ (i + 1) * x = 2 ^ i * (2 * x) := fun i => by ring
      refine ⟨j + 1, by omega, by rw [heq, hpow], ?_, fun hlt => ?_⟩
      · intro i hi
        cases i with
        | zero => simpa using hp
        | succ i =>
          rw [hpow]
          exact hbefore i (by omega)
      · rw [hpow]
        exact hafter (by omega)
    · exact ⟨0, Nat.zero_le _, by simp, by simp, fun _ => by simpa using hp⟩

lemma not_doubleWhile {fuel x b : ℕ} (hp : ∀ y, p y → y < b) (hfuel : b ≤ 2 ^ fuel * x) :
    ¬ p (doubleWhile p fuel x) := by
  obtain ⟨j, hj, heq, -, hafter⟩ := doubleWhile_eq p fuel x
  rw [heq]
  rcases hj.lt_or_eq with hlt | rfl
  · exact hafter hlt
  · intro h
    exact absurd (hp _ h) (by omega)

lemma doubleWhile_two_pow (fuel : ℕ) {j b m : ℕ} (hj : j ≤ b) (hm : m < 2 ^ b) (hfuel : b ≤ fuel) :
    ∃ k ≤ b, doubleWhile (fun n => n ≤ m) fuel (2 ^ j) = 2 ^ k ∧ j ≤ k ∧ m < 2 ^ k := by
  obtain ⟨i, -, heq, hbefore, -⟩ := doubleWhile_eq (fun n => n ≤ m) fuel (2 ^ j)
  have hstop : ¬ decide (doubleWhile (fun n => n ≤ m) fuel (2 ^ j) ≤ m) = true :=
    not_doubleWhile (p := fun n => n ≤ m)
      (fun y hy => (of_decide_eq_true hy).trans_lt hm)
      ((Nat.pow_le_pow_right (by omega) hfuel).trans
        (Nat.le_mul_of_pos_right _ (Nat.two_pow_pos j)))
  rw [heq, ← pow_add] at hstop
  refine ⟨i + j, ?_, by rw [heq, pow_add], by omega, by simpa using hstop⟩
  rcases Nat.eq_zero_or_pos i with rfl | hi
  · omega
  · have hlast := of_decide_eq_true (hbefore (i - 1) (by omega))
    rw [← pow_add] at hlast
    have := (Nat.pow_lt_pow_iff_right (by omega)).mp (hlast.trans_lt hm)
    omega

end RainCall
