import Mathlib

/-!
# Counting keys by class

A histogram over the entries of a finite map counts, for every class, the keys whose entry is of
that class. When one entry changes, only its old and its new class change their counts:
`census_update` is the only fact that the upkeep of such a histogram needs.
-/

namespace RainCall

open Finset Function

variable {κ γ : Type*} [DecidableEq γ]

/-- The number of keys of `dom` whose class is `c`; a key without a class is not counted. -/
def census (dom : Finset κ) (cls : κ → Option γ) (c : γ) : ℕ :=
  (dom.filter fun k => cls k = some c).card

variable {dom : Finset κ} {cls : κ → Option γ}

/-- There is nothing to count. -/
@[simp] lemma census_empty (cls : κ → Option γ) (c : γ) : census ∅ cls c = 0 := rfl

/-- The classes of the keys of the domain determine the count. -/
lemma census_congr {cls' : κ → Option γ} (h : ∀ k ∈ dom, cls k = cls' k) (c : γ) :
    census dom cls c = census dom cls' c := by
  unfold census
  congr 1
  exact filter_congr fun k hk => by rw [h k hk]

/-- One key contributes to its own class only. -/
lemma census_eq_erase_add [DecidableEq κ] {k : κ} (hk : cls k ≠ none → k ∈ dom) (c : γ) :
    census dom cls c = census (dom.erase k) cls c + if cls k = some c then 1 else 0 := by
  unfold census
  rw [filter_erase]
  by_cases hc : cls k = some c
  · have hmem : k ∈ dom.filter fun k => cls k = some c :=
      mem_filter.mpr ⟨hk (by simp [hc]), hc⟩
    rw [if_pos hc, card_erase_add_one hmem]
  · have hmem : k ∉ dom.filter fun k => cls k = some c := fun h => hc (mem_filter.mp h).2
    rw [if_neg hc, erase_eq_of_notMem hmem, Nat.add_zero]

/-- When the entry of `k` changes its class to `y`, the old class loses one key and the new class
gains one. -/
lemma census_update [DecidableEq κ] {dom' : Finset κ} {k : κ} {y : Option γ}
    (hdom : dom'.erase k = dom.erase k) (hk : cls k ≠ none → k ∈ dom)
    (hy : y ≠ none → k ∈ dom') (c : γ) :
    (census dom' (update cls k y) c : ℤ) =
      census dom cls c - (if cls k = some c then 1 else 0) + if y = some c then 1 else 0 := by
  have hrest : census (dom.erase k) (update cls k y) c = census (dom.erase k) cls c :=
    census_congr (fun k' hk' => update_of_ne (ne_of_mem_erase hk') _ _) c
  have hy' : update cls k y k ≠ none → k ∈ dom' := by simpa using hy
  rw [census_eq_erase_add hk c, census_eq_erase_add hy' c, hdom, hrest, update_self]
  push_cast
  ring

end RainCall
