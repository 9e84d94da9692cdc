import Mathlib

/-!
# Logs in a ring of slots

A partial map `f` from slots to values holds a log if the entries of the log lie in consecutive
slots modulo the length of the log, ending with the newest one at the *anchor*. The length of the
ring is the length of the log: there is no slot in use outside of it.
-/

namespace RainCall

open Function List Nat

variable {α : Type*}

/-- The slots of `f` hold the log `l`, oldest entry first, with its newest entry at slot `a`. -/
structure RingHolds (f : ℕ → Option α) (a : ℕ) (l : List α) : Prop where
  anchor : a < l.length
  /-- The entries follow each other around the ring. -/
  get : ∀ i < l.length, f ((a + 1 + i) % l.length) = l[i]?
  outside : ∀ i, l.length ≤ i → f i = none

namespace RingHolds

variable {f : ℕ → Option α} {a : ℕ} {l : List α} {v : α}

lemma length_pos (h : RingHolds f a l) : 0 < l.length := zero_lt_of_lt h.anchor

lemma isSome_iff (h : RingHolds f a l) (i : ℕ) : (f i).isSome ↔ i < l.length := by
  by_cases hi : i < l.length
  · have hpos := h.length_pos
    have hslot : (a + 1 + (i + l.length - (a + 1)) % l.length) % l.length = i := by
      rw [Nat.add_mod_mod, show a + 1 + (i + l.length - (a + 1)) = i + l.length by
        have := h.anchor
        omega, Nat.add_mod_right, Nat.mod_eq_of_lt hi]
    have hget := h.get ((i + l.length - (a + 1)) % l.length) (Nat.mod_lt _ hpos)
    rw [hslot] at hget
    rw [hget, getElem?_eq_getElem (Nat.mod_lt _ hpos)]
    simp [hi]
  · rw [h.outside i (Nat.le_of_not_lt hi)]
    simp [hi]

/-- A log in order from slot `0`. -/
lemma of_getElem? (hl : l ≠ []) (hf : ∀ i, f i = l[i]?) : RingHolds f (l.length - 1) l := by
  have hpos : 0 < l.length := length_pos_iff.mpr hl
  refine ⟨by omega, fun i hi => ?_, fun i hi => ?_⟩
  · rw [show l.length - 1 + 1 + i = l.length + i by omega, add_mod_left, mod_eq_of_lt hi,
      hf]
  · rw [hf, getElem?_eq_none hi]

/-- The ring has not wrapped: the log is in order from slot `0`. -/
lemma get_of_last (h : RingHolds f a l) (ha : a + 1 = l.length) (i : ℕ) : f i = l[i]? := by
  by_cases hi : i < l.length
  · rw [← h.get i hi, ha, Nat.add_mod_left, Nat.mod_eq_of_lt hi]
  · rw [h.outside i (Nat.le_of_not_lt hi), getElem?_eq_none (Nat.le_of_not_lt hi)]

lemma append (h : RingHolds f a l) (ha : a + 1 = l.length) :
    RingHolds (update f (a + 1) (some v)) (a + 1) (l ++ [v]) := by
  have hring : RingHolds (update f (a + 1) (some v)) ((l ++ [v]).length - 1) (l ++ [v]) := by
    refine of_getElem? (by simp) fun i => ?_
    rw [update_apply, ha]
    split_ifs with hi
    · rw [hi, getElem?_concat_length]
    · rw [h.get_of_last ha]
      rcases Nat.lt_or_gt_of_ne hi with hlt | hgt
      · rw [getElem?_append_left hlt]
      · rw [getElem?_eq_none (by omega), getElem?_eq_none (by simp; omega)]
  rwa [length_append, length_singleton, Nat.add_sub_cancel, ← ha] at hring

lemma overwrite (h : RingHolds f a l) :
    RingHolds (update f ((a + 1) % l.length) (some v)) ((a + 1) % l.length)
      (l.tail ++ [v]) := by
  have hpos := h.length_pos
  have hlen : (l.tail ++ [v]).length = l.length := by
    rw [length_append, length_tail, length_singleton]
    omega
  refine ⟨by rw [hlen]; exact mod_lt _ hpos, fun i hi => ?_, fun i hi => ?_⟩
  · rw [hlen] at hi ⊢
    have hslot : ((a + 1) % l.length + 1 + i) % l.length = (a + 1 + (i + 1)) % l.length := by
      rw [add_assoc, mod_add_mod, add_comm 1 i]
    rw [hslot, update_apply]
    by_cases hlast : i + 1 = l.length
    · rw [hlast, add_mod_right, if_pos rfl,
        show i = l.tail.length by rw [length_tail]; omega, getElem?_concat_length]
    · have hne : (a + 1 + (i + 1)) % l.length ≠ (a + 1) % l.length := by
        intro heq
        have hmod : i + 1 ≡ 0 [MOD l.length] := Nat.ModEq.add_left_cancel' (a + 1) heq
        have := le_of_dvd (succ_pos i) ((modEq_zero_iff_dvd).mp hmod)
        omega
      rw [if_neg hne, h.get _ (by omega), getElem?_append_left (by
        rw [length_tail]
        omega), getElem?_tail]
  · rw [hlen] at hi
    have hne : i ≠ (a + 1) % l.length := (lt_of_lt_of_le (mod_lt _ hpos) hi).ne'
    rw [update_of_ne hne, h.outside i hi]

end RingHolds

end RainCall
