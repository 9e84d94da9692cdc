import RainCall.Intset.Basic

/-!
# An integer set refines a finite set

The block of a set is the array of its members in increasing order, all encoded in its width
(`Intset.Rep`). Each operation is shown to act on this list: a search finds a member or the position
to insert it at, adding inserts, removing erases, and the in-place re-encoding keeps every member.
-/

namespace RainCall

variable {is : Intset} {l : List ℤ} {v : ℤ}

/-! ### Widths -/

/-- The value fits in a two's complement number of `enc` bytes. -/
def FitsIn (enc : ℕ) (v : ℤ) : Prop := -(256 ^ enc : ℕ) ≤ v * 2 ∧ v * 2 < (256 ^ enc : ℕ)

/-- The widths of an integer set. -/
def IsIntsetEnc (enc : ℕ) : Prop := enc = 2 ∨ enc = 4 ∨ enc = 8

lemma isIntsetEnc_valueEncoding (v : ℤ) : IsIntsetEnc (_intsetValueEncoding v) := by
  unfold _intsetValueEncoding
  split_ifs
  · exact .inr (.inr rfl)
  · exact .inr (.inl rfl)
  · exact .inl rfl

/-- `_intsetValueEncoding` is the smallest width that is enough. -/
lemma valueEncoding_le_iff {enc : ℕ} (henc : IsIntsetEnc enc) (hv : FitsIn 8 v) :
    _intsetValueEncoding v ≤ enc ↔ FitsIn enc v := by
  have h2 : (256 ^ 2 : ℕ) = 65536 := rfl
  have h4 : (256 ^ 4 : ℕ) = 4294967296 := rfl
  unfold _intsetValueEncoding intsetEncInt16 intsetEncInt32 intsetEncInt64
  rcases henc with rfl | rfl | rfl
  · rw [FitsIn]
    split_ifs <;> omega
  · rw [FitsIn]
    split_ifs <;> omega
  · refine iff_of_true ?_ hv
    split_ifs <;> omega

lemma fitsIn_valueEncoding (hv : FitsIn 8 v) : FitsIn (_intsetValueEncoding v) v :=
  (valueEncoding_le_iff (isIntsetEnc_valueEncoding v) hv).mp le_rfl

lemma FitsIn.mono {enc enc' : ℕ} (h : FitsIn enc v) (hle : enc ≤ enc') : FitsIn enc' v := by
  have hpow : 256 ^ enc ≤ 256 ^ enc' := Nat.pow_le_pow_right (by decide) hle
  obtain ⟨h1, h2⟩ := h
  have hcast : ((256 ^ enc : ℕ) : ℤ) ≤ (256 ^ enc' : ℕ) := Int.ofNat_le.mpr hpow
  exact ⟨(neg_le_neg hcast).trans h1, h2.trans_le hcast⟩

/-! ### The representation -/

/-- The set `is` is the block of the increasing list `l`. -/
structure Intset.Rep (is : Intset) (l : List ℤ) : Prop where
  enc : IsIntsetEnc is.encoding
  length : is.length = l.length
  contents : is.contents = l.flatMap (leSignedBytes is.encoding)
  fits : ∀ v ∈ l, FitsIn is.encoding v
  sorted : l.Pairwise (· < ·)

/-- Reading a record of a block of records, in front of any other bytes. -/
lemma getEncoded_of_take {enc i : ℕ} (hi : i < l.length) (hfit : ∀ v ∈ l, FitsIn enc v)
    (htake : is.contents.take ((i + 1) * enc) = (l.take (i + 1)).flatMap (leSignedBytes enc)) :
    _intsetGetEncoded is i enc = l.get ⟨i, hi⟩ := by
  have hw : ∀ v, (leSignedBytes enc v).length = enc := length_leSignedBytes enc
  have hrec : (is.contents.drop (i * enc)).take enc = leSignedBytes enc (l.get ⟨i, hi⟩) := by
    have hcut : (is.contents.drop (i * enc)).take enc =
        (is.contents.take ((i + 1) * enc)).drop (i * enc) := by
      rw [List.drop_take, Nat.succ_mul, Nat.add_sub_cancel_left]
    have hlast : (l.take (i + 1)).drop i = [l.get ⟨i, hi⟩] := by
      rw [List.take_succ_eq_append_getElem hi, List.drop_left' (by rw [List.length_take]; omega)]
      rfl
    rw [hcut, htake, drop_records hw, hlast, List.flatMap_singleton]
  obtain ⟨hge, hlt⟩ := hfit _ (List.get_mem l ⟨i, hi⟩)
  rw [_intsetGetEncoded, hrec, ofLeSignedBytes_leSignedBytes hge hlt]

namespace Intset.Rep

lemma get (h : is.Rep l) {i : ℕ} (hi : i < l.length) : _intsetGet is i = l.get ⟨i, hi⟩ := by
  refine getEncoded_of_take hi h.fits ?_
  rw [h.contents, take_records (length_leSignedBytes _)]

lemma get_lt (h : is.Rep l) {i j : ℕ} (hij : i < j) (hj : j < l.length) :
    _intsetGet is i < _intsetGet is j := by
  rw [h.get (hij.trans hj), h.get hj]
  exact List.pairwise_iff_get.mp h.sorted ⟨i, hij.trans hj⟩ ⟨j, hj⟩ hij

lemma mem_iff (h : is.Rep l) : v ∈ l ↔ ∃ i < l.length, _intsetGet is i = v := by
  rw [List.mem_iff_get]
  constructor
  · rintro ⟨i, rfl⟩
    exact ⟨i, i.isLt, h.get i.isLt⟩
  · rintro ⟨i, hi, rfl⟩
    exact ⟨⟨i, hi⟩, (h.get hi).symm⟩

end Intset.Rep

lemma intsetNew_rep : intsetNew.Rep [] :=
  ⟨.inl rfl, rfl, rfl, fun _ hv => absurd hv List.not_mem_nil, List.Pairwise.nil⟩

/-! ### Searching -/

/-- Position `p` separates the members below `v` from those above. -/
structure InsertPos (is : Intset) (n : ℕ) (v : ℤ) (p : ℕ) : Prop where
  le : p ≤ n
  below : ∀ i < p, _intsetGet is i < v
  above : ∀ i, p ≤ i → i < n → v < _intsetGet is i

/-- The loop of the search: the members before `min` are below the value, those after `max` above.
-/
lemma intsetSearchLoop_spec (h : is.Rep l) (mid : ℤ) {fuel : ℕ} {min max cur : ℤ} (hmin : 0 ≤ min)
    (hmax : max < l.length) (hle : min ≤ max + 1) (hfuel : max - min < fuel)
    (hbelow : ∀ i : ℕ, (i : ℤ) < min → _intsetGet is i < v)
    (habove : ∀ i : ℕ, max < i → i < l.length → v < _intsetGet is i) (hcur : min ≤ max ∨ v ≠ cur) :
    let r := intsetSearchLoop is v fuel min max mid cur
    (v = r.2.2 ∧ 0 ≤ r.2.1 ∧ r.2.1 < l.length ∧ _intsetGet is r.2.1.toNat = v) ∨
      (v ≠ r.2.2 ∧ 0 ≤ r.1 ∧ InsertPos is l.length v r.1.toNat) := by
  induction fuel generalizing min max mid cur with
  | zero =>
    refine .inr ⟨hcur.resolve_left (by push_cast at hfuel; omega), hmin, ?_, fun i hi => ?_,
      fun i hi hlt => ?_⟩
    · simp only [intsetSearchLoop]
      omega
    · exact hbelow i (by simp only [intsetSearchLoop] at hi; omega)
    · refine habove i ?_ hlt
      simp only [intsetSearchLoop] at hi
      omega
  | succ fuel ih =>
    simp only [intsetSearchLoop]
    split_ifs with hloop hgt hlt
    · -- go right
      refine ih _ (by omega) hmax (by omega) (by omega) (fun i hi => ?_) habove (.inr hgt.ne')
      rcases Nat.lt_or_ge i ((min + max) / 2).toNat with hi' | hi'
      · exact (h.get_lt hi' (by omega)).trans hgt
      · obtain rfl : i = ((min + max) / 2).toNat := by omega
        exact hgt
    · -- go left
      refine ih _ hmin (by omega) (by omega) (by omega) hbelow (fun i hi hlen => ?_) (.inr hlt.ne)
      rcases Nat.lt_or_ge ((min + max) / 2).toNat i with hi' | hi'
      · exact hlt.trans (h.get_lt hi' hlen)
      · obtain rfl : i = ((min + max) / 2).toNat := by omega
        exact hlt
    · have heq : v = _intsetGet is ((min + max) / 2).toNat := le_antisymm (not_lt.mp hgt)
        (not_lt.mp hlt)
      exact .inl ⟨heq, show 0 ≤ (min + max) / 2 by omega,
        show (min + max) / 2 < l.length by omega, heq.symm⟩
    · refine .inr ⟨hcur.resolve_left hloop, hmin, show min.toNat ≤ l.length by omega,
        fun i hi => hbelow i ?_, fun i hi hlt => habove i ?_ hlt⟩
      · exact Int.lt_toNat.mp hi
      · omega

/-- The result of a search: the position of the value, or the one to insert it at. -/
lemma intsetSearch_spec (h : is.Rep l) (v : ℤ) :
    ((intsetSearch is v).1 = true ∧ ∃ hi : (intsetSearch is v).2 < l.length,
      l.get ⟨(intsetSearch is v).2, hi⟩ = v) ∨
      ((intsetSearch is v).1 = false ∧ InsertPos is l.length v (intsetSearch is v).2) := by
  have hn := h.length
  unfold intsetSearch
  split_ifs with hzero hlast hfirst
  · exact .inr ⟨rfl, by omega, fun i hi => absurd hi (by simp), fun i _ hi => by omega⟩
  · refine .inr ⟨rfl, by simp only; omega, fun i hi => ?_, fun i hi hlt => ?_⟩
    · rcases Nat.lt_or_ge i (is.length - 1) with hi' | hi'
      · exact (h.get_lt hi' (by omega)).trans hlast
      · obtain rfl : i = is.length - 1 := by omega
        exact hlast
    · omega
  · refine .inr ⟨rfl, Nat.zero_le _, fun i hi => absurd hi (by simp), fun i _ hlt => ?_⟩
    rcases Nat.eq_zero_or_pos i with rfl | hpos
    · exact hfirst
    · exact hfirst.trans (h.get_lt hpos hlt)
  · have hmax : (is.length : ℤ) - 1 < l.length := by omega
    have hcur : (0 : ℤ) ≤ is.length - 1 ∨ v ≠ -1 := .inl (by omega)
    have hloop := intsetSearchLoop_spec h (-1) le_rfl hmax (by omega)
      (show (is.length : ℤ) - 1 - 0 < is.length by omega) (fun i hi => by omega)
      (fun i hi hlt => by omega) hcur
    rcases hloop with ⟨hv, h0, hlt, hget⟩ | ⟨hv, h0, hpos⟩
    · refine .inl ?_
      rw [if_pos hv]
      refine ⟨rfl, by simp only; omega, ?_⟩
      rw [← h.get]
      exact hget
    · refine .inr ?_
      rw [if_neg hv]
      exact ⟨rfl, hpos⟩

end RainCall
