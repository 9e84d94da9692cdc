import RainCall.Foundation.Search

/-!
# Sorted association lists as finite maps

`Represents l f` says that the list `l` of key and value pairs, strictly sorted by key, lists
exactly the graph of the partial map `f : ℕ → Option α`. Such a list is determined by `f`, so the
effect of an update of `f` on the length of the list can be computed without looking at the
representation.

`filledFrom b l` lists the occupied slots of an array `l` of optional values, numbered from `b`.
-/

namespace RainCall

open Function List

variable {α β γ : Type*}

def KeySorted (l : List (ℕ × α)) : Prop := l.Pairwise fun p q => p.1 < q.1

/-- The total weight of the values of a list of pairs. -/
def weight (w : α → ℕ) (l : List (ℕ × α)) : ℕ := (l.map fun p => w p.2).sum

variable {l : List (ℕ × α)}

lemma weight_perm (w : α → ℕ) {l' : List (ℕ × α)} (h : l.Perm l') : weight w l = weight w l' :=
  (h.map _).sum_eq

lemma weight_append (w : α → ℕ) (l l' : List (ℕ × α)) :
    weight w (l ++ l') = weight w l + weight w l' := by
  simp [weight]

lemma weight_one (l : List (ℕ × α)) : weight (fun _ => 1) l = l.length := by
  simp [weight]

/-- The list is the sorted graph of the partial map. -/
structure Represents (l : List (ℕ × α)) (f : ℕ → Option α) : Prop where
  sorted : KeySorted l
  mem_iff : ∀ k v, (k, v) ∈ l ↔ f k = some v

lemma KeySorted.nodup (h : KeySorted l) : l.Nodup :=
  h.imp fun hlt heq => absurd (congrArg Prod.fst heq) hlt.ne

variable {k : ℕ}

namespace Represents

variable {l' : List (ℕ × α)} {f f' : ℕ → Option α}

section

variable (h : Represents l f)
include h

lemma eq_of_eq (h' : Represents l' f) : l = l' := by
  have hperm : l.Perm l' := by
    refine (perm_ext_iff_of_nodup h.sorted.nodup h'.sorted.nodup).mpr ?_
    rintro ⟨k, v⟩
    rw [h.mem_iff, h'.mem_iff]
  refine hperm.eq_of_pairwise ?_ h.sorted h'.sorted
  intro p q _ _ hpq hqp
  exact absurd hpq (by omega)

/-- The map is determined by the list. -/
lemma fun_eq (h' : Represents l f') : f = f' := by
  funext k
  refine Option.ext fun v => ?_
  rw [← h.mem_iff, h'.mem_iff]

/-- Clearing a set of keys filters the list. -/
lemma eq_filter {p : ℕ → Prop} [DecidablePred p]
    (h' : Represents l' fun k => if p k then none else f k) :
    l' = l.filter fun q => ¬ p q.1 := by
  refine h'.eq_of_eq ⟨h.sorted.filter _, fun k v => ?_⟩
  rw [mem_filter, h.mem_iff]
  by_cases hk : p k <;> simp [hk]

/-- The pairs are the pair of a key, if it has one, and those of the other keys. -/
lemma perm_filter_ne (k : ℕ) :
    l.Perm ((f k).toList.map (Prod.mk k) ++ l.filter fun p => ¬ p.1 = k) := by
  refine (perm_ext_iff_of_nodup h.sorted.nodup ?_).mpr ?_
  · refine List.Nodup.append ?_ (h.sorted.nodup.filter _) ?_
    · cases f k <;> simp
    · intro p hp hq
      simp only [mem_map] at hp
      obtain ⟨v, -, rfl⟩ := hp
      simp at hq
  · rintro ⟨j, v⟩
    simp only [mem_append, mem_map, Prod.mk.injEq,
      mem_filter, h.mem_iff]
    by_cases hj : j = k
    · subst hj
      simp
    · simp [hj, Ne.symm hj]

/-- Changing one key changes the total weight by that of its pairs. -/
lemma weight_update {o : Option α} (h' : Represents l' (update f k o)) (w : α → ℕ) :
    weight w l' + (f k).elim 0 w = weight w l + o.elim 0 w := by
  have hrest : (l'.filter fun p => ¬ p.1 = k) = l.filter fun p => ¬ p.1 = k := by
    have hboth : Represents (l'.filter fun p => ¬ p.1 = k) fun j =>
        if j = k then none else f j := by
      refine ⟨h'.sorted.filter _, fun j v => ?_⟩
      rw [mem_filter, h'.mem_iff]
      by_cases hj : j = k <;> simp [hj]
    exact h.eq_filter hboth
  have hsum : ∀ o : Option α, weight w (o.toList.map (Prod.mk k)) = o.elim 0 w := by
    intro o
    cases o <;> simp [weight]
  have hl := weight_perm w (h.perm_filter_ne k)
  have hl' := weight_perm w (h'.perm_filter_ne k)
  rw [weight_append, hsum] at hl hl'
  rw [hrest, update_self] at hl'
  omega

lemma le_weight {v : α} (hk : f k = some v) (w : α → ℕ) :
    w v ≤ weight w l :=
  le_sum_of_mem (mem_map.mpr ⟨(k, v), (h.mem_iff k v).mpr hk, rfl⟩)

/-- Changing one key changes the number of pairs by that of its pairs. -/
lemma length_update {o : Option α} (h' : Represents l' (update f k o)) :
    l'.length + (f k).toList.length = l.length + o.toList.length := by
  have hw := h.weight_update h' fun _ => 1
  have hone : ∀ o : Option α, (o.elim 0 fun _ => 1) = o.toList.length := by
    intro o
    cases o <;> rfl
  rwa [weight_one, weight_one, hone, hone] at hw

/-- Setting a new key adds one pair. -/
lemma length_of_insert {v : α} (h' : Represents l' (update f k (some v))) (hk : f k = none) :
    l'.length = l.length + 1 := by
  simpa [hk] using h.length_update h'

/-- Removing a key removes one pair. -/
lemma length_of_erase (h' : Represents l' (update f k none)) (hk : f k ≠ none) :
    l'.length + 1 = l.length := by
  obtain ⟨v, hv⟩ := Option.ne_none_iff_exists'.mp hk
  simpa [hv] using h.length_update h'

lemma eq_nil_iff : l = [] ↔ ∀ k, f k = none := by
  constructor
  · rintro rfl k
    cases hk : f k with
    | none => rfl
    | some v => simpa using (h.mem_iff k v).mpr hk
  · intro hf
    refine eq_nil_iff_forall_not_mem.mpr ?_
    rintro ⟨k, v⟩ hmem
    exact absurd ((h.mem_iff k v).mp hmem) (by simp [hf])

end

end Represents

/-! ### Splitting at a key -/

/-- Position `n` separates the keys below `k` from the others. -/
structure SplitsAt (l : List (ℕ × α)) (n k : ℕ) : Prop where
  below : ∀ p ∈ l.take n, p.1 < k
  above : ∀ p ∈ l.drop n, k ≤ p.1

lemma mem_take_or_drop (n : ℕ) {p : ℕ × α} :
    p ∈ l ↔ p ∈ l.take n ∨ p ∈ l.drop n := by
  rw [← mem_append, take_append_drop]

variable {n : ℕ}

/-- A key of a sorted list sits at the position that separates. -/
lemma KeySorted.mem_iff_of_splitsAt (h : KeySorted l) {v : α}
    (hs : SplitsAt l n k) : (k, v) ∈ l ↔ l[n]? = some (k, v) := by
  constructor
  · intro hmem
    have hdrop : (k, v) ∈ l.drop n := by
      rcases (mem_take_or_drop n).mp hmem with ht | hd
      · exact absurd (hs.below _ ht) (lt_irrefl _)
      · exact hd
    -- the head of the rest is not above `k`, and nothing below `k` is left
    have hsorted : KeySorted (l.drop n) := h.drop
    rw [← head?_drop]
    cases hl : l.drop n with
    | nil => simp [hl] at hdrop
    | cons q t =>
      rw [hl] at hdrop hsorted
      have hq : k ≤ q.1 := hs.above q (by simp [hl])
      rcases mem_cons.mp hdrop with rfl | ht
      · rfl
      · have := (pairwise_cons.mp hsorted).1 _ ht
        exact absurd hq (by simp only at this; omega)
  · exact mem_of_getElem?

/-- The position of a key separates. -/
lemma KeySorted.splitsAt (h : KeySorted l) {w : α} (hn : l[n]? = some (k, w)) :
    SplitsAt l n k ∧ SplitsAt l (n + 1) (k + 1) := by
  obtain ⟨hlt, hget⟩ := List.getElem?_eq_some_iff.mp hn
  have hdrop : l.drop n = (k, w) :: l.drop (n + 1) := by
    rw [List.drop_eq_getElem_cons hlt, hget]
  have hsorted := h
  rw [← List.take_append_drop n l, hdrop, KeySorted, List.pairwise_append,
    List.pairwise_cons] at hsorted
  obtain ⟨-, ⟨htail, -⟩, hcross⟩ := hsorted
  have hbelow : ∀ p ∈ l.take n, p.1 < k := fun p hp => hcross p hp (k, w) (by simp)
  refine ⟨⟨hbelow, ?_⟩, ⟨?_, fun p hp => htail p hp⟩⟩
  · intro p hp
    rw [hdrop, List.mem_cons] at hp
    rcases hp with rfl | hp
    · exact le_rfl
    · exact (htail p hp).le
  · intro p hp
    rw [List.take_add_one, hn] at hp
    rcases List.mem_append.mp hp with hp | hp
    · exact (hbelow p hp).trans (Nat.lt_succ_self k)
    · obtain rfl : p = (k, w) := by simpa using hp
      exact Nat.lt_succ_self k

/-- The position behind a key, or behind the smaller keys if the key is missing. -/
lemma KeySorted.splitsAt_succ (h : KeySorted l) {found : Bool}
    (hs : SplitsAt l n k) (hfound : found = true ↔ ∃ v, l[n]? = some (k, v)) :
    SplitsAt l (if found then n + 1 else n) (k + 1) := by
  split_ifs with hf
  · obtain ⟨v, hv⟩ := hfound.mp hf
    exact (h.splitsAt hv).2
  · refine ⟨fun p hp => (hs.below p hp).trans (Nat.lt_succ_self k), ?_⟩
    rintro ⟨j, v⟩ hp
    refine Nat.lt_of_le_of_ne (hs.above _ hp) ?_
    rintro rfl
    exact hf (hfound.mpr ⟨v, (h.mem_iff_of_splitsAt hs).mp (mem_of_mem_drop hp)⟩)

/-- The key at position `i`. -/
def keyAt (l : List (ℕ × α)) (i : ℕ) : ℕ := (l[i]?.map Prod.fst).getD 0

variable {i : ℕ}

lemma getElem?_eq_keyAt (hi : i < l.length) :
    ∃ v, l[i]? = some (keyAt l i, v) :=
  ⟨l[i].2, by simp [keyAt, hi]⟩

lemma KeySorted.keyAt_lt (h : KeySorted l) {j : ℕ} (hij : i < j)
    (hj : j < l.length) : keyAt l i < keyAt l j := by
  have := pairwise_iff_getElem.mp h i j (by omega) hj hij
  simpa [keyAt, hj, hij.trans hj] using this

/-- The binary search for a key of a sorted list. -/
lemma KeySorted.lowerBound (h : KeySorted l) (k : ℕ) :
    let pos := lowerBound (fun mid => keyAt l mid < k) l.length
    SplitsAt l pos k ∧ pos ≤ l.length ∧
      ((pos < l.length ∧ keyAt l pos = k) ↔ ∃ v, l[pos]? = some (k, v)) := by
  intro pos
  have hmono : ∀ i j, i ≤ j → j < l.length → decide (keyAt l j < k) → decide (keyAt l i < k) := by
    intro i j hij hj hb
    simp only [decide_eq_true_eq] at hb ⊢
    rcases hij.lt_or_eq with hlt | rfl
    · exact (h.keyAt_lt hlt hj).trans hb
    · exact hb
  obtain ⟨hle, hbelow, habove⟩ := lowerBound_spec hmono
  simp only [decide_eq_true_eq] at hbelow habove
  have hkey : ∀ i (hi : i < l.length), l[i].1 = keyAt l i := fun i hi => by simp [keyAt, hi]
  refine ⟨⟨?_, ?_⟩, hle, ?_⟩
  · intro p hp
    obtain ⟨i, hi, rfl⟩ := List.mem_take_iff_getElem.mp hp
    rw [hkey]
    exact hbelow i (by omega)
  · intro p hp
    obtain ⟨i, hi, rfl⟩ := List.mem_drop_iff_getElem.mp hp
    rw [hkey]
    exact Nat.le_of_not_lt (habove _ (Nat.le_add_right _ i) (by omega))
  · constructor
    · rintro ⟨hlt, hkey⟩
      obtain ⟨v, hv⟩ := getElem?_eq_keyAt hlt
      exact ⟨v, by rw [hv, hkey]⟩
    · rintro ⟨v, hv⟩
      exact ⟨(List.getElem?_eq_some_iff.mp hv).1, by simp [keyAt, hv]⟩

namespace Represents

variable {l' : List (ℕ × α)} {f f' : ℕ → Option α} {m : ℕ} {v w : α}

lemma insert (h : Represents l f) (hs : SplitsAt l n k) (hk : f k = none) (v : α) :
    Represents (l.take n ++ (k, v) :: l.drop n) (update f k (some v)) := by
  have habove : ∀ p ∈ l.drop n, k < p.1 := by
    rintro ⟨j, w⟩ hp
    refine lt_of_le_of_ne (hs.above _ hp) ?_
    rintro rfl
    have := (h.mem_iff k w).mp (mem_of_mem_drop hp)
    simp [hk] at this
  refine ⟨pairwise_append.mpr ⟨h.sorted.take, ?_, ?_⟩, ?_⟩
  · exact pairwise_cons.mpr ⟨habove, h.sorted.drop⟩
  · intro p hp q hq
    rcases mem_cons.mp hq with rfl | hq
    · exact hs.below p hp
    · exact (hs.below p hp).trans (habove q hq)
  · intro j w
    rw [mem_append, mem_cons, or_left_comm, ← mem_take_or_drop, h.mem_iff]
    by_cases hj : j = k
    · subst hj
      simp [hk, eq_comm]
    · simp [hj]

/-- Removing the pairs at the positions from `n` to `m - 1`, which are those with a key in
`[lo, hi]`. -/
lemma cut (h : Represents l f) {lo hi : ℕ} (hn : SplitsAt l n lo) (hm : SplitsAt l m (hi + 1))
    (hnm : n ≤ m) :
    Represents (l.take n ++ l.drop m) fun j => if lo ≤ j ∧ j ≤ hi then none else f j := by
  have hfilter : l.filter (fun p => ¬ (lo ≤ p.1 ∧ p.1 ≤ hi)) = l.take n ++ l.drop m := by
    have hsplit : l = l.take n ++ ((l.take m).drop n ++ l.drop m) := by
      nth_rewrite 1 [← take_append_drop m l, ← take_append_drop n (l.take m)]
      rw [take_take, Nat.min_eq_left hnm, append_assoc]
    nth_rewrite 1 [hsplit]
    rw [filter_append, filter_append, filter_eq_self.mpr,
      filter_eq_nil_iff.mpr, nil_append, filter_eq_self.mpr]
    · intro p hp
      have := hm.above p hp
      simp only [decide_eq_true_eq]
      omega
    · intro p hp
      have h1 := hm.below p (mem_of_mem_drop hp)
      have h2 := hn.above p (by
        rw [drop_take] at hp
        exact mem_of_mem_take hp)
      simp only [decide_eq_true_eq]
      omega
    · intro p hp
      have := hn.below p hp
      simp only [decide_eq_true_eq]
      omega
  rw [← hfilter]
  refine ⟨h.sorted.filter _, fun j w => ?_⟩
  rw [mem_filter, h.mem_iff]
  by_cases hj : lo ≤ j ∧ j ≤ hi <;> simp [hj]

lemma eraseAt (h : Represents l f) (hn : l[n]? = some (k, w)) :
    Represents (l.take n ++ l.drop (n + 1)) (update f k none) := by
  obtain ⟨h1, h2⟩ := h.sorted.splitsAt hn
  have hcut := h.cut h1 h2 (Nat.le_succ n)
  have heq : (fun j => if k ≤ j ∧ j ≤ k then none else f j) = update f k none := by
    funext j
    rw [update_apply]
    exact if_congr (by omega) rfl rfl
  rwa [heq] at hcut

lemma setAt (h : Represents l f) (hn : l[n]? = some (k, w)) (v : α) :
    Represents (l.set n (k, v)) (update f k (some v)) := by
  obtain ⟨h1, h2⟩ := h.sorted.splitsAt hn
  have hlt : n < l.length := (List.getElem?_eq_some_iff.mp hn).1
  have herase := h.eraseAt hn
  have hlen : (l.take n).length = n := List.length_take_of_le hlt.le
  have hs : SplitsAt (l.take n ++ l.drop (n + 1)) n k := by
    refine ⟨?_, ?_⟩
    · rw [List.take_left' hlen]
      exact h1.below
    · rw [List.drop_left' hlen]
      exact fun p hp => (h2.above p hp).trans' (Nat.le_succ k)
  have hins := herase.insert hs (by simp) v
  rw [List.take_left' hlen, List.drop_left' hlen, update_idem] at hins
  rwa [List.set_eq_take_append_cons_drop, if_pos hlt]

end Represents

lemma insertIdx_eq_take_append {l : List α} (hi : i ≤ l.length) (a : α) :
    l.insertIdx i a = l.take i ++ a :: l.drop i := by
  induction i generalizing l with
  | zero => simp
  | succ i ih =>
    cases l with
    | nil => simp at hi
    | cons x l => simpa using ih (by simpa using hi)

/-! ### Slots -/

/-- The content of slot `i`; there is nothing outside of the array. -/
def slotAt (l : List (Option α)) (i : ℕ) : Option α := l.getD i none

lemma slotAt_of_length_le {l : List (Option α)} (h : l.length ≤ i) : slotAt l i = none := by
  simp [slotAt, h]

lemma lt_length_of_slotAt {l : List (Option α)} {a : α} (h : slotAt l i = some a) :
    i < l.length := by
  by_contra hge
  rw [slotAt_of_length_le (Nat.le_of_not_lt hge)] at h
  simp at h

lemma slotAt_set {l : List (Option α)} (hi : i < l.length) (o : Option α) :
    slotAt (l.set i o) = update (slotAt l) i o := by
  funext j
  by_cases hj : j = i
  · subst hj
    simp [slotAt, hi]
  · simp [slotAt, getElem?_set_ne (Ne.symm hj), hj]

@[simp] lemma slotAt_replicate_none (n i : ℕ) :
    slotAt (replicate n (none : Option α)) i = none := by
  by_cases h : i < n <;> simp [slotAt, h]

/-- The occupied slots of an array, numbered from `b`. -/
def filledFrom : ℕ → List (Option α) → List (ℕ × α)
  | _, [] => []
  | b, none :: l => filledFrom (b + 1) l
  | b, some a :: l => (b, a) :: filledFrom (b + 1) l

lemma filledFrom_append (b : ℕ) (l l' : List (Option α)) :
    filledFrom b (l ++ l') = filledFrom b l ++ filledFrom (b + l.length) l' := by
  induction l generalizing b with
  | nil => simp [filledFrom]
  | cons o l ih =>
    have hb : b + 1 + l.length = b + (l.length + 1) := by omega
    cases o with
    | none | some a => simp [filledFrom, ih, hb]

@[simp] lemma filledFrom_replicate_none (b n : ℕ) :
    filledFrom b (replicate n (none : Option α)) = [] := by
  induction n generalizing b with
  | zero => rfl
  | succ n ih => simp [replicate_succ, filledFrom, ih]

lemma length_filledFrom (b : ℕ) (l : List (Option α)) :
    (filledFrom b l).length = l.countP Option.isSome := by
  induction l generalizing b with
  | nil => rfl
  | cons o l ih => cases o <;> simp [filledFrom, ih]

lemma mem_filledFrom {b : ℕ} {l : List (Option α)} {a : α} :
    (k, a) ∈ filledFrom b l ↔ b ≤ k ∧ slotAt l (k - b) = some a := by
  induction l generalizing b with
  | nil => simp [filledFrom, slotAt]
  | cons o l ih =>
    have hmem : (k, a) ∈ filledFrom b (o :: l) ↔
        (k = b ∧ o = some a) ∨ (k, a) ∈ filledFrom (b + 1) l := by
      cases o with
      | none => simp [filledFrom]
      | some c => simp [filledFrom, eq_comm]
    rw [hmem, ih]
    rcases lt_trichotomy k b with hlt | rfl | hgt
    · simp [show ¬ b ≤ k by omega, show ¬ b + 1 ≤ k by omega, hlt.ne]
    · simp [slotAt]
    · obtain ⟨i, rfl⟩ : ∃ i, k = b + 1 + i := ⟨k - (b + 1), by omega⟩
      have hsub : b + 1 + i - b = i + 1 := by omega
      simp [hsub, slotAt, show b + 1 + i ≠ b by omega, show b ≤ b + 1 + i by omega]

lemma keySorted_filledFrom (b : ℕ) (l : List (Option α)) : KeySorted (filledFrom b l) := by
  induction l generalizing b with
  | nil => exact List.Pairwise.nil
  | cons o l ih =>
    cases o with
    | none => exact ih (b + 1)
    | some a =>
      refine pairwise_cons.mpr ⟨?_, ih (b + 1)⟩
      rintro ⟨k, c⟩ hmem
      have := (mem_filledFrom.mp hmem).1
      exact this

lemma lt_of_mem_filledFrom {b : ℕ} {l : List (Option α)} {p : ℕ × α} (h : p ∈ filledFrom b l) :
    b ≤ p.1 ∧ p.1 < b + l.length := by
  obtain ⟨h1, h2⟩ := mem_filledFrom.mp h
  have := lt_length_of_slotAt h2
  omega

/-- The occupied slots of an array represent the array. -/
lemma represents_filledFrom (b : ℕ) (l : List (Option α)) :
    Represents (filledFrom b l) fun k => if b ≤ k then slotAt l (k - b) else none := by
  refine ⟨keySorted_filledFrom b l, fun k v => ?_⟩
  rw [mem_filledFrom]
  by_cases hk : b ≤ k <;> simp [hk]

lemma represents_filledFrom_zero (l : List (Option α)) :
    Represents (filledFrom 0 l) (slotAt l) := by
  have := represents_filledFrom 0 l
  simpa using this

/-- The occupied slots after a write. -/
lemma represents_filledFrom_set (b : ℕ) {l : List (Option α)} (hi : i < l.length) (o : Option α) :
    Represents (filledFrom b (l.set i o))
      (update (fun k => if b ≤ k then slotAt l (k - b) else none) (b + i) o) := by
  have heq : (update (fun k => if b ≤ k then slotAt l (k - b) else none) (b + i) o) =
      fun k => if b ≤ k then slotAt (l.set i o) (k - b) else none := by
    funext k
    rw [slotAt_set hi, update_apply, update_apply]
    by_cases hk : k = b + i
    · simp [hk]
    · by_cases hb : b ≤ k
      · rw [if_neg hk, if_pos hb, if_pos hb, if_neg (by omega)]
      · rw [if_neg hk, if_neg hb, if_neg hb]
  rw [heq]
  exact represents_filledFrom b _

lemma weight_filledFrom_set (w : α → ℕ) (b : ℕ) {l : List (Option α)} (hi : i < l.length)
    (o : Option α) :
    weight w (filledFrom b (l.set i o)) + (slotAt l i).elim 0 w =
      weight w (filledFrom b l) + o.elim 0 w := by
  simpa using (represents_filledFrom b l).weight_update (represents_filledFrom_set b hi o) w

lemma length_filledFrom_set (b : ℕ) {l : List (Option α)} (hi : i < l.length) (o : Option α) :
    (filledFrom b (l.set i o)).length + (slotAt l i).toList.length =
      (filledFrom b l).length + o.toList.length := by
  simpa using (represents_filledFrom b l).length_update (represents_filledFrom_set b hi o)

/-! ### The highest key -/

/-- The highest key of a list of pairs. -/
structure IsTop (l : List (ℕ × α)) (h : ℕ) : Prop where
  mem : ∃ a, (h, a) ∈ l
  le : ∀ p ∈ l, p.1 ≤ h

lemma Represents.isGreatest {f : ℕ → Option α} (h : Represents l f) {top : ℕ}
    (htop : IsTop l top) : IsGreatest {k | (f k).isSome} top := by
  refine ⟨?_, fun k hk => ?_⟩
  · obtain ⟨a, ha⟩ := htop.mem
    exact Option.isSome_iff_exists.mpr ⟨a, (h.mem_iff top a).mp ha⟩
  · obtain ⟨a, ha⟩ := Option.isSome_iff_exists.mp hk
    exact htop.le _ ((h.mem_iff k a).mpr ha)

/-- The number of pairs is the number of keys with a value. -/
lemma Represents.length_eq_ncard {f : ℕ → Option α} (h : Represents l f) :
    l.length = {k | (f k).isSome}.ncard := by
  have hset : {k | (f k).isSome} = ((l.map Prod.fst).toFinset : Set ℕ) := by
    simp [Option.isSome_iff_exists, h.mem_iff]
  have hnodup : (l.map Prod.fst).Nodup := pairwise_map.mpr (h.sorted.imp fun hlt => hlt.ne)
  rw [hset, Set.ncard_coe_finset, toFinset_card_of_nodup hnodup, length_map]

lemma exists_scanDown_isTop {b : ℕ} {l : List (Option α)} (hne : filledFrom b l ≠ [])
    (hn : ∀ p ∈ filledFrom b l, p.1 < b + n) :
    ∃ i, scanDown (fun i => (slotAt l i).isSome) n = some i ∧ IsTop (filledFrom b l) (b + i) := by
  obtain ⟨⟨k, v⟩, hkv⟩ := exists_mem_of_ne_nil _ hne
  obtain ⟨hk, hslot⟩ := mem_filledFrom.mp hkv
  have hlt := hn _ hkv
  obtain ⟨i, hi⟩ := exists_scanDown (p := fun i => (slotAt l i).isSome) (n := n)
    (j := k - b) (by omega) (by simp [hslot])
  obtain ⟨-, hsome, hmax⟩ := scanDown_eq_some hi
  obtain ⟨w, hw⟩ := Option.isSome_iff_exists.mp hsome
  refine ⟨i, hi, ⟨w, mem_filledFrom.mpr ⟨Nat.le_add_right _ _, by simpa using hw⟩⟩, ?_⟩
  rintro ⟨j, u⟩ hju
  obtain ⟨hj, hslot'⟩ := mem_filledFrom.mp hju
  have hjlt := hn _ hju
  have := hmax (j - b) (by simp [hslot']) (by omega)
  omega

end RainCall
