import RainCall.Foundation.Fenwick
import RainCall.Foundation.Run

/-!
# The Fenwick tree of `fwtree.c`

`FenwickTree.Represents ft a` says that the tree stores the numbers `a 0, …, a (size - 1)`. An
update changes one of them, and the searches find positions by their prefix sums.
-/

namespace RainCall

open Finset Function Nat Option
open List hiding mem_range range range_zero sum_range_succ

/-! ### The model -/

/-- `fenwickTree`; entry 0 of `tree` is not used. -/
structure FenwickTree where
  sizeBits : ℕ
  tree : List ℕ
  total : ℕ
  deriving DecidableEq, Repr

/-- The field `size`. -/
def FenwickTree.size (ft : FenwickTree) : ℕ := 2 ^ ft.sizeBits

def fwTreeCreate (sizeBits : ℕ) : FenwickTree :=
  ⟨sizeBits, List.replicate (2 ^ sizeBits + 1) 0, 0⟩

/-- The loop of `fwTreePrefixSum`, which ends after at most `idx` iterations. -/
def fwTreePrefixLoop (tree : List ℕ) : ℕ → ℕ → ℕ → ℕ
  | 0, _, sum => sum
  | fuel + 1, idx, sum =>
    if 0 < idx then fwTreePrefixLoop tree fuel (idx - lowbit 32 idx) (sum + tree.getD idx 0)
    else sum

def fwTreePrefixSum (ft : FenwickTree) (idx : ℤ) : ℕ :=
  if idx < 0 then 0
  else
    let idx := if (ft.size : ℤ) ≤ idx then ft.size - 1 else idx.toNat
    fwTreePrefixLoop ft.tree (idx + 1) (idx + 1) 0

/-- The loop of `fwTreeUpdate`, with its assertion; it ends after at most `size` iterations. The
index is an `int`, so `none` also stands for an overflow of `idx += idx & -idx`. -/
def fwTreeUpdateLoop (size : ℕ) (delta : ℤ) : ℕ → ℕ → List ℕ → Option (List ℕ)
  | 0, _, _ => none
  | fuel + 1, idx, tree =>
    if idx ≤ size then
      if delta < 0 ∧ (tree.getD idx 0 : ℤ) < -delta then none
      else if 2 ^ 31 ≤ idx + lowbit 32 idx then none
      else fwTreeUpdateLoop size delta fuel (idx + lowbit 32 idx)
        (tree.set idx (tree.getD idx 0 + delta).toNat)
    else some tree

def fwTreeUpdate (ft : FenwickTree) (idx : ℤ) (delta : ℤ) : Option FenwickTree :=
  if idx < 0 ∨ (ft.size : ℤ) ≤ idx then some ft
  else
    (fwTreeUpdateLoop ft.size delta (ft.size + 1) (idx.toNat + 1) ft.tree).map fun tree =>
      { ft with tree := tree, total := (ft.total + delta).toNat }

/-- The loop of `fwTreeFindIndex` from the bit `2 ^ b` down; `none` stands for a read behind the end
of the tree. -/
def fwTreeFindLoop (tree : List ℕ) : ℕ → ℕ → ℕ → Option ℕ
  | 0, target, result =>
    (tree[result + 1]?).map fun t => if t < target then result + 1 else result
  | b + 1, target, result =>
    (tree[result + 2 ^ (b + 1)]?).bind fun t =>
      if t < target then fwTreeFindLoop tree b (target - t) (result + 2 ^ (b + 1))
      else fwTreeFindLoop tree b target result

def fwTreeFindIndex (ft : FenwickTree) (target : ℕ) : Option ℕ :=
  if target = 0 then some 0 else fwTreeFindLoop ft.tree ft.sizeBits target 0

def fwTreeFindFirstNonEmpty (ft : FenwickTree) : Option ℕ := fwTreeFindIndex ft 1

def fwTreeFindNextNonEmpty (ft : FenwickTree) (idx : ℤ) : Option ℤ :=
  if idx < 0 ∨ (ft.size : ℤ) ≤ idx then some (-1)
  else
    let nextSum := fwTreePrefixSum ft idx + 1
    if nextSum ≤ ft.total then (fwTreeFindIndex ft nextSum).map Nat.cast else some (-1)

def fwTreeClear (ft : FenwickTree) : FenwickTree :=
  { ft with tree := List.replicate (ft.size + 1) 0, total := 0 }

/-! ### What a tree stores -/

/-- The tree stores the numbers `a 0, …, a (size - 1)`. -/
structure FenwickTree.Represents (ft : FenwickTree) (a : ℕ → ℕ) : Prop where
  /-- Twice the size is an `int`: an update steps from node `size` to the node of twice its index.
  -/
  bits : ft.sizeBits ≤ 29
  length : ft.tree.length = ft.size + 1
  /-- Every node holds the sum over its positions. -/
  node : ∀ i, 0 < i → i ≤ ft.size →
    ft.tree.getD i 0 = ∑ j ∈ Finset.Ico (i - lowbit 32 i) i, a j
  total : ft.total = ∑ j ∈ Finset.range ft.size, a j

namespace FenwickTree

variable {ft : FenwickTree} {a : ℕ → ℕ}

lemma Represents.size_le (h : ft.Represents a) : ft.size ≤ 2 ^ 29 :=
  Nat.pow_le_pow_right (by omega) h.bits

lemma represents_fwTreeCreate {sizeBits : ℕ} (h : sizeBits ≤ 29) :
    (fwTreeCreate sizeBits).Represents fun _ => 0 where
  bits := h
  length := length_replicate
  node i _ hi := by
    have hlt : i < (replicate (2 ^ sizeBits + 1) 0).length := by
      rw [length_replicate]
      exact lt_succ_of_le hi
    rw [fwTreeCreate, getD_eq_getElem _ _ hlt, getElem_replicate, sum_const_zero]
  total := by rw [sum_const_zero]; rfl

lemma Represents.clear (h : ft.Represents a) : (fwTreeClear ft).Represents fun _ => 0 := by
  have := represents_fwTreeCreate h.bits
  exact ⟨h.bits, this.length, this.node, this.total⟩

/-- The tree depends only on the numbers at its positions. -/
lemma Represents.congr {b : ℕ → ℕ} (h : ft.Represents a) (hab : ∀ j < ft.size, a j = b j) :
    ft.Represents b where
  bits := h.bits
  length := h.length
  node i hi hle := by
    rw [h.node i hi hle]
    exact sum_congr rfl fun j hj => hab j (by rw [mem_Ico] at hj; omega)
  total := by
    rw [h.total]
    exact sum_congr rfl fun j hj => hab j (mem_range.mp hj)

/-! ### Prefix sums -/

lemma fwTreePrefixLoop_eq (h : ft.Represents a) {fuel idx : ℕ} (sum : ℕ) (hidx : idx ≤ ft.size)
    (hfuel : idx ≤ fuel) :
    fwTreePrefixLoop ft.tree fuel idx sum = sum + ∑ j ∈ range idx, a j := by
  induction fuel generalizing idx sum with
  | zero =>
    obtain rfl : idx = 0 := by omega
    rfl
  | succ fuel ih =>
    rw [fwTreePrefixLoop]
    split_ifs with hpos
    · have hw : idx < 2 ^ 32 := by have := h.size_le; omega
      have hlow : 0 < lowbit 32 idx := lowbit_pos hpos hw
      have hsplit := sum_range_add_sum_Ico a (sub_le idx (lowbit 32 idx))
      rw [ih _ (by omega) (by omega), h.node idx hpos hidx]
      omega
    · obtain rfl : idx = 0 := by omega
      rfl

variable {p : ℕ}

lemma Represents.prefixSum (h : ft.Represents a) (hp : p < ft.size) :
    fwTreePrefixSum ft p = ∑ j ∈ range (p + 1), a j := by
  rw [fwTreePrefixSum, if_neg (by omega)]
  rw [if_neg (by omega), Int.toNat_natCast, fwTreePrefixLoop_eq h 0 (by omega) le_rfl, zero_add]

/-! ### Updates -/

/-- Changing the number at one position changes the sums of the nodes that hold it. -/
lemma sum_Ico_update {x i : ℕ} (hp : FenwickCovers 32 i p) :
    ((∑ j ∈ Finset.Ico (i - lowbit 32 i) i, update a p x j : ℕ) : ℤ) =
      (∑ j ∈ Finset.Ico (i - lowbit 32 i) i, a j : ℕ) + (x - a p) := by
  have hmem : p ∈ Finset.Ico (i - lowbit 32 i) i := mem_Ico.mpr hp
  have hupd := sum_update_of_mem hmem a x
  have hrest := sum_eq_add_sum_sdiff_singleton_of_mem hmem a
  omega

lemma sum_Ico_update_of_not {x i : ℕ} (hp : ¬ FenwickCovers 32 i p) :
    ∑ j ∈ Finset.Ico (i - lowbit 32 i) i, update a p x j =
      ∑ j ∈ Finset.Ico (i - lowbit 32 i) i, a j :=
  sum_update_of_notMem (fun hmem => hp (mem_Ico.mp hmem)) a x

/-- The loop of an update: the nodes below `idx` have their new sums already. -/
lemma fwTreeUpdateLoop_spec {size x : ℕ} (hsize : size ≤ 2 ^ 29) {fuel idx : ℕ} {tree : List ℕ}
    (hlen : tree.length = size + 1) (hfuel : size + 1 - idx < fuel)
    (hcov : FenwickCovers 32 idx p) (hidx : idx ≤ 2 * size)
    (hbelow : ∀ i, 0 < i → i < idx → i ≤ size →
      tree.getD i 0 = ∑ j ∈ Finset.Ico (i - lowbit 32 i) i, update a p x j)
    (habove : ∀ i, idx ≤ i → i ≤ size →
      tree.getD i 0 = ∑ j ∈ Finset.Ico (i - lowbit 32 i) i, a j) :
    ∃ tree', fwTreeUpdateLoop size (x - a p) fuel idx tree = some tree' ∧
      tree'.length = size + 1 ∧ ∀ i, 0 < i → i ≤ size →
        tree'.getD i 0 = ∑ j ∈ Finset.Ico (i - lowbit 32 i) i, update a p x j := by
  induction fuel generalizing idx tree with
  | zero => omega
  | succ fuel ih =>
    have hpos : 0 < idx := by have := hcov.2; omega
    rw [fwTreeUpdateLoop]
    by_cases hle : idx ≤ size
    · have hlow : 0 < lowbit 32 idx := lowbit_pos hpos (by omega)
      have hlow' : lowbit 32 idx ≤ idx := lowbit_le hpos (by omega)
      have hnode := habove idx le_rfl hle
      have hge : a p ≤ tree.getD idx 0 := by
        rw [hnode]
        exact single_le_sum (fun j _ => zero_le (a j)) (mem_Ico.mpr hcov)
      have hnew : (tree.getD idx 0 + ((x : ℤ) - a p)).toNat =
          ∑ j ∈ Finset.Ico (idx - lowbit 32 idx) idx, update a p x j := by
        rw [hnode, ← sum_Ico_update hcov, Int.toNat_natCast]
      have hset : ∀ i, (tree.set idx (tree.getD idx 0 + ((x : ℤ) - a p)).toNat).getD i 0 =
          if i = idx then ∑ j ∈ Finset.Ico (idx - lowbit 32 idx) idx, update a p x j
          else tree.getD i 0 := by
        intro i
        by_cases hi : i = idx
        · rw [if_pos hi, hi, getD_eq_getElem _ _ (by rw [length_set]; omega),
            getElem_set_self, hnew]
        · rw [if_neg hi, getD_eq_getElem?_getD, getElem?_set_ne (Ne.symm hi),
            getD_eq_getElem?_getD]
      rw [if_pos hle, if_neg (by omega), if_neg (by omega)]
      refine ih (by rw [length_set, hlen]) (by omega) (hcov.next (by omega)) (by omega) ?_ ?_
      · intro i hi hlt hisize
        rw [hset]
        split_ifs with hi'
        · rw [hi']
        · rcases lt_or_gt_of_ne hi' with hi' | hi'
          · exact hbelow i hi hi' hisize
          · -- the nodes that are passed over do not hold the position
            rw [sum_Ico_update_of_not (hcov.not_between hi' hlt (by omega))]
            exact habove i hi'.le hisize
      · intro i hi hisize
        rw [hset, if_neg (by omega)]
        exact habove i (by omega) hisize
    · rw [if_neg hle]
      exact ⟨tree, rfl, hlen, fun i hi hisize => hbelow i hi (by omega) hisize⟩

section

variable (h : ft.Represents a)
include h

/-- An update that leaves the number at its position non-negative passes its assertions. -/
lemma Represents.update {x : ℕ} (hp : p < ft.size) :
    ∃ ft', fwTreeUpdate ft p (x - a p) = some ft' ∧ ft'.sizeBits = ft.sizeBits ∧
      ft'.Represents (Function.update a p x) := by
  have hsize := h.size_le
  obtain ⟨tree, htree, hlen, hnode⟩ := fwTreeUpdateLoop_spec (x := x) hsize h.length
    (show ft.size + 1 - (p + 1) < ft.size + 1 by omega) (.first (by omega)) (by omega)
    (fun i hi hlt hle => by
      have hnot : ¬ FenwickCovers 32 i p := fun hcov => by have := hcov.2; omega
      rw [sum_Ico_update_of_not hnot]
      exact h.node i hi hle)
    (fun i hi hle => h.node i (by omega) hle)
  refine ⟨{ ft with tree := tree, total := (ft.total + ((x : ℤ) - a p)).toNat }, ?_, rfl,
    h.bits, hlen,
    hnode, ?_⟩
  · rw [fwTreeUpdate, if_neg (by omega), Int.toNat_natCast, htree, map_some]
  · have hmem : p ∈ range ft.size := mem_range.mpr hp
    have hupd := sum_update_of_mem hmem a x
    have hrest := sum_eq_add_sum_sdiff_singleton_of_mem hmem a
    have htotal := h.total
    show (ft.total + ((x : ℤ) - a p)).toNat = ∑ j ∈ range ft.size, Function.update a p x j
    omega

/-! ### Searches -/

/-- The node read by the descent at the bit `2 ^ b`. -/
lemma Represents.getElem?_add_two_pow {b result : ℕ} (hdvd : 2 ^ (b + 1) ∣ result)
    (hle : result + 2 ^ b ≤ ft.size) :
    ∃ t, ft.tree[result + 2 ^ b]? = some t ∧
      ∑ j ∈ range (result + 2 ^ b), a j = ∑ j ∈ range result, a j + t := by
  have hsize := h.size_le
  have hlt : result + 2 ^ b < ft.tree.length := by rw [h.length]; omega
  have hnode := h.node (result + 2 ^ b) (by omega) hle
  rw [getD_eq_getElem _ _ hlt, lowbit_add_two_pow hdvd (by omega), Nat.add_sub_cancel] at hnode
  refine ⟨_, getElem?_eq_getElem hlt, ?_⟩
  rw [hnode, sum_range_add_sum_Ico a (Nat.le_add_right _ _)]

/-- The descent of `fwTreeFindIndex`: the searched position is one of the `2 ^ (b + 1)` positions
from `result` on. -/
lemma fwTreeFindLoop_spec {b target result : ℕ} (hdvd : 2 ^ (b + 1) ∣ result)
    (hle : result + 2 ^ (b + 1) ≤ ft.size) (hpos : 0 < target)
    (htarget : ∑ j ∈ range result, a j + target ≤ ∑ j ∈ range (result + 2 ^ (b +
      1)), a j) :
    ∃ r < ft.size, fwTreeFindLoop ft.tree b target result = some r ∧
      ∑ j ∈ range r, a j < ∑ j ∈ range result, a j + target ∧
      ∑ j ∈ range result, a j + target ≤ ∑ j ∈ range (r + 1), a j := by
  induction b generalizing target result with
  | zero =>
    obtain ⟨t, ht, hsum⟩ := h.getElem?_add_two_pow hdvd (by omega)
    rw [pow_zero] at ht hsum
    rw [fwTreeFindLoop, ht, map_some]
    split_ifs with hlt
    · exact ⟨result + 1, by omega, rfl, by omega, htarget⟩
    · exact ⟨result, by omega, rfl, by omega, by omega⟩
  | succ b ih =>
    have hhalf : 2 ^ (b + 1 + 1) = 2 ^ (b + 1) + 2 ^ (b + 1) := by ring
    have hdvd' : 2 ^ (b + 1) ∣ result := (pow_dvd_pow 2 (le_succ _)).trans hdvd
    obtain ⟨t, ht, hsum⟩ := h.getElem?_add_two_pow hdvd (by omega)
    rw [fwTreeFindLoop, ht, bind_some]
    split_ifs with hlt
    · have htarget' : ∑ j ∈ range (result + 2 ^ (b + 1)), a j + (target - t) =
          ∑ j ∈ range result, a j + target := by omega
      rw [hhalf, ← add_assoc, ← htarget'] at htarget
      obtain ⟨r, hr, hfind, hlow, hhigh⟩ :=
        ih (dvd_add hdvd' (dvd_refl _)) (by omega) (by omega) htarget
      rw [htarget'] at hlow hhigh
      exact ⟨r, hr, hfind, hlow, hhigh⟩
    · exact ih hdvd' (by omega) hpos (by omega)

/-- `fwTreeFindIndex` finds the position at which the prefix sums reach the target. -/
lemma Represents.findIndex {target : ℕ} (hpos : 0 < target) (hle : target ≤ ft.total) :
    ∃ r < ft.size, fwTreeFindIndex ft target = some r ∧
      ∑ j ∈ range r, a j < target ∧ target ≤ ∑ j ∈ range (r + 1), a j := by
  rw [fwTreeFindIndex, if_neg hpos.ne']
  have htotal := h.total
  obtain ⟨t, ht, hsum⟩ := h.getElem?_add_two_pow (dvd_zero _)
    (by rw [Nat.zero_add]; exact le_rfl)
  rw [Nat.zero_add, range_zero, sum_empty] at hsum
  rw [size] at htotal
  cases hbits : ft.sizeBits with
  | zero =>
    rw [hbits, pow_zero] at ht hsum htotal
    rw [fwTreeFindLoop, ht, map_some, if_neg (by omega)]
    exact ⟨0, Nat.two_pow_pos _, rfl, by simpa using hpos, by rw [Nat.zero_add]; omega⟩
  | succ b =>
    rw [hbits] at ht hsum htotal
    rw [fwTreeFindLoop, ht, bind_some, if_neg (by omega)]
    obtain ⟨r, hr, hfind, hlow, hhigh⟩ := fwTreeFindLoop_spec h (dvd_zero _)
      (by rw [size, hbits, Nat.zero_add]) hpos
      (by rw [range_zero, sum_empty, Nat.zero_add, Nat.zero_add]; omega)
    rw [range_zero, sum_empty, Nat.zero_add] at hlow hhigh
    exact ⟨r, hr, hfind, hlow, hhigh⟩

lemma Represents.findFirstNonEmpty (hne : 0 < ft.total) :
    ∃ q < ft.size, fwTreeFindFirstNonEmpty ft = some q ∧ a q ≠ 0 ∧ ∀ j < q, a j = 0 := by
  obtain ⟨q, hq, hfind, hlow, hhigh⟩ := h.findIndex one_pos hne
  rw [sum_range_succ] at hhigh
  have hzero : ∑ j ∈ range q, a j = 0 := by omega
  refine ⟨q, hq, hfind, by omega, fun j hj => ?_⟩
  exact sum_eq_zero_iff.mp hzero j (mem_range.mpr hj)

/-- `fwTreeFindNextNonEmpty` -/
lemma Represents.findNextNonEmpty (hp : p < ft.size) :
    (fwTreeFindNextNonEmpty ft p = some (-1) ∧ ∀ j, p < j → j < ft.size → a j = 0) ∨
      ∃ q, p < q ∧ q < ft.size ∧ fwTreeFindNextNonEmpty ft p = some (q : ℤ) ∧ a q ≠ 0 ∧
        ∀ j, p < j → j < q → a j = 0 := by
  have htotal := h.total
  have hzero : ∀ n, p < n → ∑ j ∈ range n, a j = ∑ j ∈ range (p + 1), a j →
      ∀ j, p < j → j < n → a j = 0 := by
    intro n hn heq j hpj hjn
    rw [← sum_range_add_sum_Ico a (show p + 1 ≤ n by omega), add_eq_left] at heq
    exact sum_eq_zero_iff.mp heq j (mem_Ico.mpr ⟨hpj, hjn⟩)
  rw [fwTreeFindNextNonEmpty, if_neg (by omega), h.prefixSum hp]
  dsimp only
  have hmono : ∑ j ∈ range (p + 1), a j ≤ ∑ j ∈ range ft.size, a j :=
    sum_le_sum_of_subset (range_mono hp)
  split_ifs with hle
  · obtain ⟨q, hq, hfind, hlow, hhigh⟩ := h.findIndex (succ_pos _) hle
    have hpq : p < q := by
      by_contra hqp
      have : ∑ j ∈ range (q + 1), a j ≤ ∑ j ∈ range (p + 1), a j :=
        sum_le_sum_of_subset (range_mono (by omega))
      omega
    have hmono' : ∑ j ∈ range (p + 1), a j ≤ ∑ j ∈ range q, a j :=
      sum_le_sum_of_subset (range_mono hpq)
    rw [sum_range_succ a q] at hhigh
    exact .inr ⟨q, hpq, hq, by rw [hfind, map_some], by omega, hzero q hpq (by omega)⟩
  · exact .inl ⟨rfl, hzero ft.size hp (by omega)⟩

end

end FenwickTree

/-! ### Runs -/

def fwElement (ops : List (ℕ × ℤ)) (i : ℕ) : ℤ :=
  (ops.map fun op => if op.1 = i then op.2 else 0).sum

/-- The updates keep the numbers non-negative and store them. -/
lemma fwTree_run {sizeBits : ℕ} (hbits : sizeBits ≤ 29) {ops : List (ℕ × ℤ)}
    (hidx : ∀ op ∈ ops, op.1 < 2 ^ sizeBits)
    (hnonneg : ∀ ops', ops' <+: ops → ∀ i, 0 ≤ fwElement ops' i) :
    ∃ ft, runSteps (fun ft (op : ℕ × ℤ) => fwTreeUpdate ft op.1 op.2) (fwTreeCreate sizeBits) ops =
        some ft ∧ ft.sizeBits = sizeBits ∧ ft.Represents fun i => (fwElement ops i).toNat := by
  induction ops using reverseRecOn with
  | nil => exact ⟨_, rfl, rfl, FenwickTree.represents_fwTreeCreate hbits⟩
  | append_singleton ops op ih =>
    obtain ⟨ft, hrun, hsize, hft⟩ := ih (fun op' hop' => hidx op' (mem_append_left _ hop'))
      fun ops' hpre => hnonneg ops' (hpre.trans (prefix_append ..))
    have hnew :
        ∀ i, fwElement (ops ++ [op]) i = fwElement ops i + if op.1 = i then op.2 else 0 := by
      simp [fwElement]
    have hge := hnonneg ops (prefix_append ..) op.1
    have hge' := hnonneg (ops ++ [op]) prefix_rfl op.1
    have hlt : op.1 < ft.size := by
      rw [FenwickTree.size, hsize]
      exact hidx op (by simp)
    obtain ⟨ft', hupd, hbits', hft'⟩ :=
      hft.update hlt
    refine ⟨ft', ?_, hbits'.trans hsize, hft'.congr fun j _ => ?_⟩
    · rw [Int.toNat_of_nonneg hge', Int.toNat_of_nonneg hge, hnew, if_pos rfl,
        add_sub_cancel_left] at hupd
      rw [runSteps_append, hrun, bind_some, runSteps_cons, hupd]
      rfl
    · by_cases hj : j = op.1
      · rw [hj, update_self]
      · rw [update_of_ne hj, hnew, if_neg (Ne.symm hj), add_zero]

/-- A Fenwick tree of at most `2 ^ 29` numbers after any updates that keep them non-negative: no
assertion fails and no index overflows, the prefix sums are right, the position at which they reach
a target is found without a read outside of the tree, and so is the next position with a number
other than 0. -/
theorem fwTree_correct {sizeBits : ℕ} (hbits : sizeBits ≤ 29) {ops : List (ℕ × ℤ)}
    (hidx : ∀ op ∈ ops, op.1 < 2 ^ sizeBits)
    (hnonneg : ∀ ops', ops' <+: ops → ∀ i, 0 ≤ fwElement ops' i) :
    ∃ ft, runSteps (fun ft (op : ℕ × ℤ) => fwTreeUpdate ft op.1 op.2) (fwTreeCreate sizeBits) ops =
        some ft ∧
      (∀ p : ℕ, p < 2 ^ sizeBits →
        (fwTreePrefixSum ft p : ℤ) = ∑ i ∈ Finset.range (p + 1), fwElement ops i) ∧
      (∀ target : ℕ, 0 < target →
        (target : ℤ) ≤ ∑ i ∈ Finset.range (2 ^ sizeBits), fwElement ops i →
        ∃ r < 2 ^ sizeBits, fwTreeFindIndex ft target = some r ∧
          IsLeast {p | (target : ℤ) ≤ ∑ i ∈ Finset.range (p + 1), fwElement ops i} r) ∧
      ∀ p : ℕ, p < 2 ^ sizeBits →
        (fwTreeFindNextNonEmpty ft p = some (-1) ∧
          ∀ q : ℕ, p < q → q < 2 ^ sizeBits → fwElement ops q = 0) ∨
        ∃ q : ℕ, q < 2 ^ sizeBits ∧ fwTreeFindNextNonEmpty ft p = some (q : ℤ) ∧
          IsLeast {q | p < q ∧ fwElement ops q ≠ 0} q := by
  obtain ⟨ft, hrun, rfl, hft⟩ := fwTree_run hbits hidx hnonneg
  have hcast : ∀ i, ((fwElement ops i).toNat : ℤ) = fwElement ops i :=
    fun i => Int.toNat_of_nonneg (hnonneg ops prefix_rfl i)
  have hsum : ∀ n, ((∑ i ∈ range n, (fwElement ops i).toNat : ℕ) : ℤ) =
      ∑ i ∈ range n, fwElement ops i := by
    intro n
    rw [cast_sum]
    exact sum_congr rfl fun i _ => hcast i
  have hzero : ∀ i, (fwElement ops i).toNat = 0 ↔ fwElement ops i = 0 := by
    intro i
    have := hcast i
    omega
  refine ⟨ft, hrun, fun p hp => ?_, fun target hpos hle => ?_, fun p hp => ?_⟩
  · rw [hft.prefixSum hp, hsum]
  · obtain ⟨r, hr, hfind, hlow, hhigh⟩ := hft.findIndex hpos (by
      rw [hft.total, ← Int.ofNat_le, hsum]
      exact hle)
    refine ⟨r, hr, hfind, ?_, fun p hp => ?_⟩
    · rw [Set.mem_ofPred_eq, ← hsum]
      exact Int.ofNat_le.mpr hhigh
    · -- up to a smaller position the sum is below the target
      by_contra hlt
      rw [Set.mem_ofPred_eq, ← hsum] at hp
      have hmono := sum_le_sum_of_subset (f := fun i => (fwElement ops i).toNat)
        (range_mono (show p + 1 ≤ r by omega))
      omega
  · rcases hft.findNextNonEmpty hp with ⟨hnone, hall⟩ | ⟨q, hpq, hq, hsome, hne, hall⟩
    · exact .inl ⟨hnone, fun q hpq hq => (hzero q).mp (hall q hpq hq)⟩
    · refine .inr ⟨q, hq, hsome, ⟨hpq, fun h => hne ((hzero q).mpr h)⟩, fun j hj => ?_⟩
      by_contra hlt
      exact hj.2 ((hzero j).mp (hall j hj.1 (by omega)))

/-- Two updates of one number of a tree with four. -/
theorem fwTree_correct_four : ∃ ft, runSteps (fun ft (op : ℕ × ℤ) => fwTreeUpdate ft op.1 op.2)
      (fwTreeCreate 2) [(1, 3), (1, -2)] = some ft ∧
    (fwTreePrefixSum ft (1 : ℕ) : ℤ) = ∑ i ∈ Finset.range 2, fwElement [(1, 3), (1, -2)] i := by
  obtain ⟨ft, hrun, hprefix, -⟩ := @fwTree_correct 2 (by decide) [(1, 3), (1, -2)]
    (by decide) fun ops' hpre i => by
      rw [← mem_inits] at hpre
      by_cases hi : 1 = i <;> fin_cases hpre <;> simp [fwElement, hi]
  exact ⟨ft, hrun, hprefix 1 (by decide)⟩

/-- In a tree of `2 ^ 30` numbers the index of an update overflows. -/
theorem fwTreeUpdate_overflows : fwTreeUpdate (fwTreeCreate 30) (2 ^ 30 - 1) 1 = none := by
  have hsize : (fwTreeCreate 30).size = 2 ^ 30 := rfl
  have hlow : 2 ^ 31 ≤ 2 ^ 30 + lowbit 32 (2 ^ 30) := by decide
  have hloop : fwTreeUpdateLoop (2 ^ 30) 1 (2 ^ 30 + 1) (2 ^ 30) (fwTreeCreate 30).tree = none := by
    rw [fwTreeUpdateLoop, if_pos le_rfl, if_neg fun h => absurd h.1 (by decide), if_pos hlow]
  rw [fwTreeUpdate, if_neg (by rw [hsize]; decide)]
  exact congrArg (Option.map _) hloop

end RainCall
