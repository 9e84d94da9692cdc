import RainCall.Foundation.SortedMap

/-!
# Two-level maps

A map on the natural numbers may be stored in blocks of `n` consecutive keys: a directory `F` gives
the block of a number `x / n`, and the block gives the value at `x % n`. `nested n F g` is the
resulting map. If the directory and each block are represented by sorted lists, then so is the map,
and a write to one block is a write to the map.
-/

namespace RainCall

open Function

variable {α β : Type*} {n : ℕ} {F : ℕ → Option β} {g : β → ℕ → Option α}

/-- The map stored in blocks of `n` keys. -/
def nested (n : ℕ) (F : ℕ → Option β) (g : β → ℕ → Option α) (x : ℕ) : Option α :=
  (F (x / n)).bind fun b => g b (x % n)

/-- The pairs of a map stored in blocks of `n` keys. -/
def nestedList (n : ℕ) (elems : β → List (ℕ × α)) (L : List (ℕ × β)) : List (ℕ × α) :=
  L.flatMap fun q => (elems q.2).map fun p => (q.1 * n + p.1, p.2)

variable {elems : β → List (ℕ × α)} {L : List (ℕ × β)} {x : ℕ}

lemma mem_nestedList {a : α} :
    (x, a) ∈ nestedList n elems L ↔ ∃ q ∈ L, ∃ p ∈ elems q.2, q.1 * n + p.1 = x ∧ p.2 = a := by
  simp [nestedList]

lemma nestedList_append (elems : β → List (ℕ × α)) (L L' : List (ℕ × β)) :
    nestedList n elems (L ++ L') = nestedList n elems L ++ nestedList n elems L' := by
  simp [nestedList]

/-- The number of pairs is the sum of those of the blocks. -/
lemma length_nestedList (elems : β → List (ℕ × α)) (L : List (ℕ × β)) :
    (nestedList n elems L).length = weight (fun b => (elems b).length) L := by
  simp [nestedList, weight]

lemma keySorted_nestedList (hL : KeySorted L) (hsorted : ∀ q ∈ L, KeySorted (elems q.2))
    (hlt : ∀ q ∈ L, ∀ p ∈ elems q.2, p.1 < n) :
    KeySorted (nestedList n elems L) := by
  induction L with
  | nil => exact List.Pairwise.nil
  | cons q L ih =>
    obtain ⟨hq, hL⟩ := List.pairwise_cons.mp hL
    have htail := ih hL (fun r hr => hsorted r (by simp [hr])) (fun r hr => hlt r (by simp [hr]))
    refine List.pairwise_append.mpr ⟨?_, htail, ?_⟩
    · refine List.pairwise_map.mpr ((hsorted q (by simp)).imp fun hab => ?_)
      omega
    · rintro p hp ⟨y, b⟩ hyb
      obtain ⟨p', hp', rfl⟩ := List.mem_map.mp hp
      obtain ⟨r, hr, p'', -, rfl, -⟩ := mem_nestedList.mp hyb
      have h1 : p'.1 < n := hlt q (by simp) p' hp'
      have h2 : (q.1 + 1) * n ≤ r.1 * n := Nat.mul_le_mul_right n (hq r hr)
      rw [Nat.add_one_mul] at h2
      omega

/-- A map stored in blocks is represented by the pairs of its blocks. -/
lemma Represents.nested (hL : Represents L F) (hrep : ∀ q ∈ L, Represents (elems q.2) (g q.2))
    (hlt : ∀ q ∈ L, ∀ p ∈ elems q.2, p.1 < n) :
    Represents (nestedList n elems L) (nested n F g) := by
  refine ⟨keySorted_nestedList hL.sorted (fun q hq => (hrep q hq).sorted) hlt, fun x a => ?_⟩
  rw [mem_nestedList, RainCall.nested, Option.bind_eq_some_iff]
  constructor
  · rintro ⟨⟨k, b⟩, hq, ⟨i, a'⟩, hp, rfl, rfl⟩
    have hi : i < n := hlt _ hq _ hp
    have hdiv : (k * n + i) / n = k := by
      rw [Nat.mul_comm, Nat.mul_add_div (by omega), Nat.div_eq_of_lt hi, Nat.add_zero]
    have hmod : (k * n + i) % n = i := by
      rw [Nat.mul_comm, Nat.mul_add_mod, Nat.mod_eq_of_lt hi]
    simp only [hdiv, hmod]
    exact ⟨b, (hL.mem_iff k b).mp hq, ((hrep _ hq).mem_iff i a').mp hp⟩
  · rintro ⟨b, hb, ha⟩
    have hq := (hL.mem_iff (x / n) b).mpr hb
    refine ⟨_, hq, _, ((hrep _ hq).mem_iff (x % n) a).mpr ha, ?_, rfl⟩
    exact Nat.div_add_mod' x n

/-! ### Writing to one block -/

/-- Keys are compared first by block. -/
lemma le_iff_div_mod (n x y : ℕ) :
    x ≤ y ↔ x / n < y / n ∨ (x / n = y / n ∧ x % n ≤ y % n) := by
  have hx := Nat.div_add_mod x n
  have hy := Nat.div_add_mod y n
  constructor
  · intro hle
    rcases (Nat.div_le_div_right hle).lt_or_eq with hlt | heq
    · exact .inl hlt
    · refine .inr ⟨heq, ?_⟩
      rw [heq] at hx
      omega
  · rintro (hlt | ⟨heq, hle⟩)
    · exact (Nat.lt_of_div_lt_div hlt).le
    · rw [heq] at hx
      omega

/-- A range of keys meets every block between those of its ends. -/
lemma exists_div_eq (hn : 0 < n) {lo hi k : ℕ} (hle : lo ≤ hi) (h1 : lo / n ≤ k) (h2 : k ≤ hi / n) :
    ∃ x, lo ≤ x ∧ x ≤ hi ∧ x / n = k := by
  rcases h1.lt_or_eq with hlt | rfl
  · refine ⟨k * n, ?_, (Nat.le_div_iff_mul_le hn).mp h2, Nat.mul_div_cancel k hn⟩
    exact ((Nat.div_lt_iff_lt_mul hn).mp hlt).le
  · exact ⟨lo, le_rfl, hle, rfl⟩

/-- A block that changes at one offset only. -/
lemma nested_update_block {v : Option α} {o : Option β}
    (ho : ∀ i, o.bind (g · i) = update (fun i => (F (x / n)).bind fun b => g b i) (x % n) v i) :
    nested n (update F (x / n) o) g = update (nested n F g) x v := by
  funext y
  rw [nested, update_apply, update_apply]
  by_cases hdiv : y / n = x / n
  · rw [if_pos hdiv, ho, update_apply]
    by_cases hmod : y % n = x % n
    · rw [if_pos hmod, if_pos (Nat.ext_div_mod hdiv hmod)]
    · rw [if_neg hmod, if_neg fun h => hmod (congrArg (· % n) h), nested, hdiv]
  · rw [if_neg hdiv, if_neg fun h => hdiv (congrArg (· / n) h)]
    rfl

lemma nested_update_some {v : Option α} {e : β}
    (he : g e = update (fun i => (F (x / n)).bind fun b => g b i) (x % n) v) :
    nested n (update F (x / n) (some e)) g = update (nested n F g) x v :=
  nested_update_block (congrFun he)

lemma nested_update_none (he : ∀ i, i ≠ x % n → ((F (x / n)).bind fun b => g b i) = none) :
    nested n (update F (x / n) none) g = update (nested n F g) x none := by
  refine nested_update_block fun i => ?_
  by_cases hi : i = x % n
  · rw [hi, update_self, Option.bind_none]
  · rw [update_of_ne hi, he i hi, Option.bind_none]

/-- Replacing a block. -/
lemma nested_update {k : ℕ} {o : Option β} (x : ℕ) :
    nested n (update F k o) g x =
      if x / n = k then o.bind (fun b => g b (x % n)) else nested n F g x := by
  rw [nested, update_apply]
  split_ifs <;> rfl

end RainCall
