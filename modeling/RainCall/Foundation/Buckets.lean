import Mathlib

/-!
# Arrays of chains

A hash table with chaining is an array of buckets, each bucket being the chain of the entries it
holds. Here the array is a list of lists. The lemmas describe the entries of the whole array, that
is its concatenation, when one bucket is overwritten: up to the order of the entries, the array is
the chain of the bucket followed by everything outside of it.
-/

namespace RainCall

open List

variable {α β : Type*}

/-- The chain stored in bucket `i`; an index outside of the array has the empty chain. -/
def bucketAt (l : List (List α)) (i : ℕ) : List α := l.getD i []

variable {l : List (List α)} {i : ℕ} {x : α} {key : α → β}

@[simp] lemma bucketAt_set_self (hi : i < l.length) (c : List α) :
    bucketAt (l.set i c) i = c := by
  simp [bucketAt, hi]

@[simp] lemma bucketAt_set_ne {j : ℕ} (h : i ≠ j) (c : List α) :
    bucketAt (l.set i c) j = bucketAt l j := by
  simp [bucketAt, getElem?_set_ne h]

@[simp] lemma bucketAt_replicate_nil (n i : ℕ) :
    bucketAt (replicate n ([] : List α)) i = [] := by
  by_cases h : i < n <;> simp [bucketAt, h]

lemma bucketAt_of_length_le (h : l.length ≤ i) : bucketAt l i = [] := by
  simp [bucketAt, h]

/-- An entry lies in the array iff it lies in one of its buckets. -/
lemma mem_flatten_iff_bucketAt :
    x ∈ l.flatten ↔ ∃ i < l.length, x ∈ bucketAt l i := by
  constructor
  · intro h
    obtain ⟨c, hc, hx⟩ := mem_flatten.mp h
    obtain ⟨i, hi, rfl⟩ := mem_iff_getElem.mp hc
    exact ⟨i, hi, by simpa [bucketAt, getD_eq_getElem?_getD, hi] using hx⟩
  · rintro ⟨i, hi, hx⟩
    refine mem_flatten.mpr ⟨l[i], getElem_mem hi, ?_⟩
    simpa [bucketAt, getD_eq_getElem?_getD, hi] using hx

/-- Overwriting bucket `i` by the chain `c`: the array holds `c` and what lies outside of `i`. -/
lemma flatten_set_perm (hi : i < l.length) (c : List α) :
    (l.set i c).flatten.Perm (c ++ (l.set i []).flatten) := by
  induction l generalizing i with
  | nil => simp at hi
  | cons b l ih =>
    cases i with
    | zero => simp
    | succ i =>
      have h := ih (by simpa using hi)
      simp only [set_cons_succ, flatten_cons]
      refine (h.append_left b).trans ?_
      rw [← append_assoc, ← append_assoc]
      exact List.Perm.append_right _ perm_append_comm

/-- The array holds the chain of bucket `i` and what lies outside of `i`. -/
lemma flatten_perm_bucketAt (l : List (List α)) (i : ℕ) :
    l.flatten.Perm (bucketAt l i ++ (l.set i []).flatten) := by
  by_cases hi : i < l.length
  · have h := flatten_set_perm hi (bucketAt l i)
    have hl : l.set i (bucketAt l i) = l := by
      simp [bucketAt, hi]
    rwa [hl] at h
  · have hi' : l.length ≤ i := Nat.le_of_not_lt hi
    rw [bucketAt_of_length_le hi', set_eq_of_length_le hi']
    simp

lemma bucketAt_of_flatten_eq_nil (h : l.flatten = []) (i : ℕ) :
    bucketAt l i = [] := by
  have hperm := flatten_perm_bucketAt l i
  rw [h] at hperm
  exact (append_eq_nil_iff.mp hperm.nil_eq.symm).1

lemma length_flatten_set (hi : i < l.length) (c : List α) :
    (l.set i c).flatten.length + (bucketAt l i).length = l.flatten.length + c.length := by
  have h₁ := (flatten_set_perm hi c).length_eq
  have h₂ := (flatten_perm_bucketAt l i).length_eq
  simp only [length_append] at h₁ h₂
  omega

lemma modify_perm {l : List α} {p : ℕ} (hx : l[p]? = some x) (f : α → α) :
    (l.modify p f).Perm (f x :: l.eraseIdx p) := by
  induction l generalizing p with
  | nil => simp at hx
  | cons a l ih =>
    cases p with
    | zero =>
      obtain rfl : a = x := by simpa using hx
      simp
    | succ p =>
      exact ((ih (by simpa using hx)).cons a).trans (List.Perm.swap _ _ _)

/-- In a list whose keys are pairwise distinct, an element is found under its key. -/
lemma find?_eq_some_of_mem {l : List α} [DecidableEq β] (hnd : (l.map key).Nodup) (hx : x ∈ l) :
    l.find? (fun y => key y = key x) = some x := by
  induction l with
  | nil => simp at hx
  | cons a l ih =>
    rw [map_cons, nodup_cons] at hnd
    rcases mem_cons.mp hx with rfl | hx
    · simp
    · have hne : key a ≠ key x := fun h => hnd.1 (h ▸ mem_map_of_mem hx)
      simpa [hne] using ih hnd.2 hx

/-- Looking up a key does not depend on the order of the entries when the keys are distinct. -/
lemma find?_key_perm {l l' : List α} [DecidableEq β] (hnd : (l.map key).Nodup) (hp : l.Perm l')
    (k : β) :
    l.find? (fun x => key x = k) = l'.find? (fun x => key x = k) := by
  cases h : l'.find? (fun x => key x = k) with
  | none =>
    rw [find?_eq_none] at h ⊢
    exact fun x hx => h x (hp.mem_iff.mp hx)
  | some x =>
    have hk : key x = k := by simpa using find?_some h
    have hx : x ∈ l := hp.mem_iff.mpr (mem_of_find?_eq_some h)
    subst hk
    exact find?_eq_some_of_mem hnd hx

/-- The part of the array from bucket `i` on starts with the chain of bucket `i`. -/
lemma flatten_drop (l : List (List α)) (i : ℕ) :
    (l.drop i).flatten = bucketAt l i ++ (l.drop (i + 1)).flatten := by
  by_cases hi : i < l.length
  · rw [drop_eq_getElem_cons hi, flatten_cons, bucketAt, getD_eq_getElem _ _ hi]
  · rw [bucketAt_of_length_le (Nat.le_of_not_lt hi), drop_eq_nil_of_le (Nat.le_of_not_lt hi),
      drop_eq_nil_of_le (by omega)]
    rfl

lemma flatten_drop_of_empty (h : ∀ j < i, bucketAt l j = []) :
    (l.drop i).flatten = l.flatten := by
  induction i with
  | zero => rfl
  | succ i ih =>
    rw [← ih fun j hj => h j (by omega), flatten_drop l i, h i (Nat.lt_succ_self i), nil_append]

/-- Arrays with the same chains hold the same entries, whatever their lengths. -/
lemma flatten_congr_bucketAt {l' : List (List α)} (h : ∀ i, bucketAt l' i = bucketAt l i) :
    l'.flatten = l.flatten := by
  induction l generalizing l' with
  | nil =>
    rw [flatten_nil, flatten_eq_nil_iff]
    intro c hc
    obtain ⟨i, hi, rfl⟩ := mem_iff_getElem.mp hc
    rw [← getD_eq_getElem _ [] hi]
    exact h i
  | cons c l ih =>
    cases l' with
    | nil =>
      symm
      rw [flatten_nil, flatten_eq_nil_iff]
      intro c hc
      obtain ⟨i, hi, rfl⟩ := mem_iff_getElem.mp hc
      rw [← getD_eq_getElem _ [] hi]
      exact (h i).symm
    | cons c' l' =>
      have hc : c' = c := h 0
      rw [flatten_cons, flatten_cons, hc, ih fun i => h (i + 1)]

lemma bucketAt_drop (l : List (List α)) (n i : ℕ) : bucketAt (l.drop n) i = bucketAt l (n + i) := by
  simp [bucketAt]

lemma bucketAt_map_filter (l : List (List α)) (p : α → Bool) (i : ℕ) :
    bucketAt (l.map (filter p)) i = (bucketAt l i).filter p := by
  simp only [bucketAt, getD_eq_getElem?_getD, getElem?_map]
  cases l[i]? <;> rfl

/-- If every chain is filtered, so are the entries from any bucket on. -/
lemma flatten_drop_filter {l' : List (List α)} {p : α → Bool}
    (h : ∀ i, bucketAt l' i = (bucketAt l i).filter p) (n : ℕ) :
    (l'.drop n).flatten = (l.drop n).flatten.filter p := by
  rw [filter_flatten]
  refine flatten_congr_bucketAt fun i => ?_
  rw [bucketAt_map_filter, bucketAt_drop, bucketAt_drop, h]

/-- Filtering does not move the place from which a chain is left, if it removes only entries that
are skipped. -/
lemma dropWhile_filter {l : List α} {p q : α → Bool} (h : ∀ x ∈ l, q x = false → p x = true) :
    (l.filter q).dropWhile p = (l.dropWhile p).filter q := by
  induction l with
  | nil => rfl
  | cons a l ih =>
    have ih' := ih fun x hx => h x (mem_cons_of_mem a hx)
    by_cases hq : q a = true
    · rw [filter_cons_of_pos hq]
      by_cases hp : p a = true
      · rw [dropWhile_cons_of_pos hp, dropWhile_cons_of_pos hp, ih']
      · rw [dropWhile_cons_of_neg hp, dropWhile_cons_of_neg hp, filter_cons_of_pos hq]
    · have hp : p a = true := h a mem_cons_self (by simpa using hq)
      rw [filter_cons_of_neg hq, dropWhile_cons_of_pos hp, ih']

/-- In a list with distinct keys, removing one element is filtering by its key. -/
lemma eraseIdx_eq_filter [DecidableEq β] {l : List α} (hnd : (l.map key).Nodup) {p : ℕ}
    (hx : l[p]? = some x) : l.eraseIdx p = l.filter fun y => decide (key y ≠ key x) := by
  induction l generalizing p with
  | nil => simp at hx
  | cons a l ih =>
    rw [map_cons, nodup_cons] at hnd
    cases p with
    | zero =>
      obtain rfl : a = x := by simpa using hx
      rw [eraseIdx_cons_zero, filter_cons_of_neg (by simp), eq_comm, filter_eq_self]
      intro y hy
      have hne : key y ≠ key a := fun h => hnd.1 (h ▸ mem_map_of_mem hy)
      simpa using hne
    | succ p =>
      have hx' : l[p]? = some x := by simpa using hx
      have hne : key a ≠ key x := fun h => hnd.1 (h ▸ mem_map_of_mem (mem_of_getElem? hx'))
      rw [eraseIdx_cons_succ, filter_cons_of_pos (by simpa using hne), ih hnd.2 hx']

/-- Skipping to a key that is in the list. -/
lemma dropWhile_ne_key [DecidableEq β] {pre rest : List α} {y : α}
    (hnd : ((pre ++ y :: rest).map key).Nodup) :
    (pre ++ y :: rest).dropWhile (fun x => decide (key x ≠ key y)) = y :: rest := by
  rw [dropWhile_append_of_pos, dropWhile_cons_of_neg (by simp)]
  intro x hx
  rw [map_append, nodup_append] at hnd
  simpa using hnd.2.2 _ (mem_map_of_mem hx) _ mem_cons_self

lemma exists_dropWhile_ne_key [DecidableEq β] {l : List α} {k : β} (hk : ∃ x ∈ l, key x = k) :
    ∃ pre x rest, l = pre ++ x :: rest ∧ key x = k ∧
      l.dropWhile (fun y => decide (key y ≠ k)) = x :: rest := by
  obtain ⟨x, hx, hxk⟩ := hk
  induction l with
  | nil => simp at hx
  | cons a l ih =>
    by_cases ha : key a = k
    · exact ⟨[], a, l, rfl, ha, dropWhile_cons_of_neg (by simpa using ha)⟩
    · have hx' : x ∈ l := by
        refine (mem_cons.mp hx).resolve_left ?_
        rintro rfl
        exact ha hxk
      obtain ⟨pre, y, rest, hl, hy, hdrop⟩ := ih hx'
      refine ⟨a :: pre, y, rest, by rw [hl, cons_append], hy, ?_⟩
      rw [dropWhile_cons_of_pos (by simpa using ha), hdrop]

end RainCall
