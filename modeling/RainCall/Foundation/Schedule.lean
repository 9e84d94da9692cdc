import Mathlib

/-!
# Virtual scheduling

A rate limiter that keeps one number, the theoretical arrival time, admits an event of cost `c` at
time `s` by moving that number to at least `s + c` and at least `c` beyond where it was, and only if
it stays within a tolerance `V` of `s`. The costs admitted in any window are then at most the length
of the window and the tolerance.
-/

namespace RainCall

open List

variable {α : Type*} [AddCommGroup α] [LinearOrder α]

/-- The events, each a time and a cost, are admitted with tolerance `V` by a limiter whose arrival
time is at least `b`. -/
def Conforming (V : α) : α → List (α × α) → Prop
  | _, [] => True
  | b, e :: rest =>
    ∃ tat, b + e.2 ≤ tat ∧ e.1 + e.2 ≤ tat ∧ tat ≤ e.1 + V ∧ Conforming V tat rest

/-- The cost of the events in a window. -/
def windowCost (t₁ t₂ : α) (l : List (α × α)) : α :=
  ((l.filter fun e => t₁ ≤ e.1 ∧ e.1 ≤ t₂).map Prod.snd).sum

section

variable {V b t₁ t₂ : α} {l : List (α × α)}

lemma windowCost_cons_of_mem {e : α × α} (h1 : t₁ ≤ e.1) (h2 : e.1 ≤ t₂) :
    windowCost t₁ t₂ (e :: l) = e.2 + windowCost t₁ t₂ l := by
  rw [windowCost, filter_cons_of_pos (by simp [h1, h2])]
  rfl

lemma windowCost_cons_of_lt {e : α × α} (h : e.1 < t₁) :
    windowCost t₁ t₂ (e :: l) = windowCost t₁ t₂ l := by
  rw [windowCost, filter_cons_of_neg (by simp [not_le.mpr h])]
  rfl

lemma windowCost_of_forall_lt (h : ∀ e ∈ l, t₂ < e.1) : windowCost t₁ t₂ l = 0 := by
  have hnil : (l.filter fun e => t₁ ≤ e.1 ∧ e.1 ≤ t₂) = [] := by
    rw [filter_eq_nil_iff]
    intro e he
    simp [not_le.mpr (h e he)]
  rw [windowCost, hnil, map_nil, sum_nil]

variable [IsOrderedAddMonoid α]

/-- A limiter may as well have started earlier, if no event is before that. -/
lemma Conforming.of_le (h : Conforming V b l) (hl : ∀ e ∈ l, t₁ ≤ e.1) : Conforming V t₁ l := by
  cases l with
  | nil => exact h
  | cons e rest =>
    obtain ⟨tat, -, hs, hV, hrest⟩ := h
    exact ⟨tat, (add_le_add_left (hl e mem_cons_self) e.2).trans hs, hs, hV, hrest⟩

/-- When all events are in the window or after it, the arrival time has moved by the whole cost. -/
lemma Conforming.add_windowCost_le (h : Conforming V b l)
    (hsorted : (l.map Prod.fst).Pairwise (· ≤ ·)) (hl : ∀ e ∈ l, t₁ ≤ e.1) :
    windowCost t₁ t₂ l = 0 ∨ b + windowCost t₁ t₂ l ≤ t₂ + V := by
  induction l generalizing b with
  | nil => exact .inl rfl
  | cons e rest ih =>
    obtain ⟨tat, hb, -, hV, hrest⟩ := h
    obtain ⟨hhead, htail⟩ := pairwise_cons.mp hsorted
    have hlater : ∀ e' ∈ rest, e.1 ≤ e'.1 := fun e' he' => hhead _ (mem_map_of_mem he')
    rcases le_or_gt e.1 t₂ with hin | hout
    · rw [windowCost_cons_of_mem (hl e mem_cons_self) hin, ← add_assoc]
      refine .inr ?_
      rcases ih hrest htail fun e' he' => hl e' (mem_cons_of_mem _ he') with hzero | hle
      · rw [hzero, add_zero]
        exact hb.trans (hV.trans (add_le_add_left hin V))
      · exact (add_le_add_left hb _).trans hle
    · refine .inl (windowCost_of_forall_lt fun e' he' => ?_)
      rcases mem_cons.mp he' with rfl | he'
      · exact hout
      · exact hout.trans_le (hlater e' he')

/-- **The rate bound of virtual scheduling**: what is admitted in a window costs at most its length
and the tolerance. -/
theorem Conforming.windowCost_le (h : Conforming V b l)
    (hsorted : (l.map Prod.fst).Pairwise (· ≤ ·)) (hV : 0 ≤ V) (ht : t₁ ≤ t₂) :
    windowCost t₁ t₂ l ≤ V + (t₂ - t₁) := by
  induction l generalizing b with
  | nil =>
    exact add_nonneg hV (sub_nonneg.mpr ht)
  | cons e rest ih =>
    rcases lt_or_ge e.1 t₁ with hbefore | hin
    · obtain ⟨tat, -, -, -, hrest⟩ := h
      rw [windowCost_cons_of_lt hbefore]
      exact ih hrest (pairwise_cons.mp hsorted).2
    · have hall : ∀ e' ∈ e :: rest, t₁ ≤ e'.1 := by
        intro e' he'
        rcases mem_cons.mp he' with rfl | he'
        · exact hin
        · exact hin.trans ((pairwise_cons.mp hsorted).1 _ (mem_map_of_mem he'))
      rcases (h.of_le hall).add_windowCost_le hsorted hall with hzero | hle
      · rw [hzero]
        exact add_nonneg hV (sub_nonneg.mpr ht)
      · rw [← add_sub_assoc, add_comm V, le_sub_iff_add_le']
        exact hle

end

end RainCall
