import RainCall.SparseArray.Value

/-!
# Decoding undoes encoding

Every string is stored as the shortest of the four kinds of value that keeps its bytes: what
`arEncode` stores, `arDecode` gives back.
-/

namespace RainCall

open List Option
open BitVec hiding and_self not_or not_and

/-! ## Tags -/

lemma shiftLeft_two_and_arTagMask (x : BitVec 64) : x <<< 2 &&& arTagMask = 0#64 := by
  ext i hi
  by_cases h2 : i < 2
  · simp [h2]
  · have hbit : arTagMask.getLsbD i = false := by
      rw [arTagMask]
      exact Nat.testBit_lt_two_pow (lt_of_lt_of_le (show 3 < 2 ^ 2 by decide)
        (Nat.pow_le_pow_right (by decide) (Nat.le_of_not_lt h2)))
    simp [getLsbD_eq_getElem hi] at hbit
    simp [hbit]

lemma arFromInt_tag (v : ℤ) : arFromInt v &&& arTagMask = 1#64 := by
  rw [arFromInt, and_or_distrib_right, shiftLeft_two_and_arTagMask]
  decide

lemma arFromFloatBits_tag (d : BitVec 64) : arFromFloatBits d &&& arTagMask = 2#64 := by
  have hclear : d &&& ~~~arTagMask &&& arTagMask = 0#64 := by
    rw [BitVec.and_assoc]
    exact BitVec.and_zero
  rw [arFromFloatBits, BitVec.and_or_distrib_right, hclear]
  decide

/-! ## Integers and floats -/

/-- An integer that fits comes back. -/
lemma arToInt_arFromInt {v : ℤ} (h : arIntFits v) : arToInt (arFromInt v) = v := by
  have hword : arFromInt v = BitVec.ofInt 64 (v * 4 + 1) := by
    have hzero : BitVec.ofInt 64 v <<< 2 &&& 1#64 = 0#64 := by
      ext i hi
      cases i <;> simp
    rw [arFromInt, ← BitVec.add_eq_or_of_and_eq_zero _ _ hzero, BitVec.shiftLeft_eq_mul_twoPow,
      BitVec.ofInt_add, BitVec.ofInt_mul]
    rfl
  obtain ⟨hge, hle⟩ := h
  rw [arToInt, BitVec.toInt_sshiftRight, hword, BitVec.toInt_ofInt,
    Int.bmod_eq_of_le (by omega) (by omega), Int.shiftRight_eq_div_pow]
  omega

lemma arToDouble_arFromFloatBits (d : BitVec 64) :
    arToDouble (arFromFloatBits d) = d &&& ~~~arTagMask := by
  rw [arToDouble, arFromFloatBits, BitVec.and_or_distrib_right, BitVec.and_assoc, BitVec.and_self]
  have : (2#64 : BitVec 64) &&& ~~~arTagMask = 0#64 := by decide
  rw [this, BitVec.or_zero]

lemma doubleExponent_trunc (d : BitVec 64) :
    doubleExponent (d &&& ~~~arTagMask) = doubleExponent d := by
  have hmask : (~~~arTagMask) >>> 52 &&& 0x7ff#64 = 0x7ff#64 := by decide
  rw [doubleExponent, BitVec.ushiftRight_and_distrib, BitVec.and_assoc]
  rfl

variable {s : Bytes} {ft : FloatText} {v : ArValue}

/-- A text that passes the filter has a dot, at most one, and no letter. -/
lemma arFloatFilter_spec {seen : Bool} (h : arFloatFilter seen s) :
    101 ∉ s ∧ 69 ∉ s ∧ s.count 46 + seen.toNat = 1 := by
  induction s generalizing seen with
  | nil =>
    obtain rfl : seen = true := h
    simp
  | cons c cs ih =>
    rw [arFloatFilter] at h
    split_ifs at h with hdot hseen hrange
    · obtain ⟨he, hE, hcount⟩ := ih h
      subst hdot
      simp only [Bool.not_eq_true] at hseen
      subst hseen
      simp only [mem_cons, not_or, count_cons_self]
      exact ⟨⟨by decide, he⟩, ⟨by decide, hE⟩, hcount⟩
    · obtain ⟨he, hE, hcount⟩ := ih h
      rw [not_or] at hrange
      simp only [mem_cons, not_or]
      refine ⟨⟨?_, he⟩, ⟨?_, hE⟩, ?_⟩
      · rintro rfl
        exact absurd hrange.2 (by decide)
      · rintro rfl
        exact absurd hrange.2 (by decide)
      · rwa [count_cons_of_ne hdot]

/-- The whole text of a float candidate, sign included, has one dot and no letter. -/
lemma arFloatFilter_sign_spec (h : arFloatFilter false (if s.head? = some 45 then s.tail else s)) :
    101 ∉ s ∧ 69 ∉ s ∧ s.count 46 = 1 := by
  obtain ⟨he, hE, hcount⟩ := arFloatFilter_spec h
  split_ifs at he hE hcount with hsign
  · obtain ⟨cs, rfl⟩ := head?_eq_some_iff.mp hsign
    simp only [mem_cons, not_or]
    exact ⟨⟨by decide, he⟩, ⟨by decide, hE⟩, hcount⟩
  · exact ⟨he, hE, hcount⟩

/-- The text of a stored float is the text it was stored for. -/
lemma arFormatFloat_of_encoded (h : arTryEncodeFloat ft s = some v) :
    ∃ d, v = .imm (arFromFloatBits d) ∧
      arFormatFloat ft (arToDouble (arFromFloatBits d)) arInlineBufSize = some s := by
  unfold arTryEncodeFloat at h
  by_cases hfilter : arFloatFilter false (if s.head? = some 45 then s.tail else s)
  swap
  · simp [hfilter] at h
  rw [if_neg (not_not.mpr hfilter)] at h
  obtain ⟨he, hE, hdot⟩ := arFloatFilter_sign_spec hfilter
  split_ifs at h with hempty hsign
  cases hd : ft.string2d s with
  | none => simp [hd] at h
  | some d =>
    simp only [hd] at h
    split_ifs at h with hnan hexact hdotted
    all_goals
      obtain rfl := some.inj h
      refine ⟨_, rfl, ?_⟩
      rw [arToDouble_arFromFloatBits, BitVec.and_assoc, BitVec.and_self, arFormatFloat,
        if_pos le_rfl]
    · -- the text itself has the dot
      have hmem : (46 : UInt8) ∈ s := count_pos_iff.mp (by omega)
      simp only [hexact, hmem, not_true, false_and, and_false, if_false]
    · have hlen := length_d2string_le ft (arInlineBufSize - 2) (by decide)
        (d &&& ~~~arTagMask)
      have hfin : doubleIsFinite (d &&& ~~~arTagMask) := by
        rw [not_or] at hnan
        simp only [doubleIsNan, doubleIsInf, decide_eq_true_eq, not_and] at hnan
        simp only [doubleIsFinite, doubleExponent_trunc, decide_eq_true_eq]
        intro hexp
        exact hnan.2 hexp (not_not.mp (hnan.1 hexp))
      generalize d2string ft (arInlineBufSize - 2) (d &&& ~~~arTagMask) = buf at *
      subst hdotted
      have hno : (46 : UInt8) ∉ buf := by
        rw [← count_eq_zero]
        simp only [count_append] at hdot
        have : count (46 : UInt8) [46, 48] = 1 := by decide
        omega
      simp only [mem_append, not_or] at he hE
      have hbuf : arInlineBufSize = 64 := rfl
      simp only [hfin, hno, he.1, hE.1, not_false_eq_true, and_self, if_true]
      rw [if_pos (by omega)]

/-! ## Small strings -/

/-- The bits the loop of `arFromSmallStr` sets: byte `j` of the text at bit `8 * (j + 1)`. -/
lemma getLsbD_arFromSmallStrLoop {i : ℕ} {v : BitVec 64} {cs : Bytes}
    (hlen : i + cs.length ≤ 7) (j : ℕ) :
    (arFromSmallStrLoop i v cs).getLsbD j =
      (v.getLsbD j || (decide (8 * (i + 1) ≤ j) &&
        (cs.getD (j / 8 - (i + 1)) 0).toBitVec.getLsbD (j % 8))) := by
  induction cs generalizing i v with
  | nil => simp [arFromSmallStrLoop]
  | cons c cs ih =>
    rw [length_cons] at hlen
    rw [arFromSmallStrLoop, ih (by omega), getLsbD_or, getLsbD_shiftLeft,
      getLsbD_setWidth]
    by_cases hlow : j < 8 * (i + 1)
    · simp [hlow, show ¬ 8 * (i + 1 + 1) ≤ j by omega]
    by_cases hhigh : 8 * (i + 1 + 1) ≤ j
    · have hsplit : j / 8 - (i + 1) = j / 8 - (i + 1 + 1) + 1 := by omega
      have hzero : c.toBitVec.getLsbD (j - 8 * (i + 1)) = false :=
        getLsbD_of_ge _ _ (by omega)
      rw [hsplit, hzero]
      simp [hhigh, show 8 * (i + 1) ≤ j by omega]
    · have hbyte : j / 8 - (i + 1) = 0 := by omega
      have hoff : j - 8 * (i + 1) = j % 8 := by omega
      rw [hbyte, hoff]
      simp [hhigh, hlow, show 8 * (i + 1) ≤ j by omega, show j < 64 by omega,
        show j % 8 < 64 by omega]

section

variable (hlen : s.length ≤ 7)
include hlen

/-- The word of a small string: its low byte has the tag and the length, byte `j + 1` is byte `j`
of the text. -/
lemma getLsbD_arFromSmallStr (j : ℕ) :
    (arFromSmallStr s).getLsbD j =
      ((3#64 ||| BitVec.ofNat 64 s.length <<< 2).getLsbD j || (decide (8 ≤ j) &&
        (s.getD (j / 8 - 1) 0).toBitVec.getLsbD (j % 8))) := by
  rw [arFromSmallStr, getLsbD_arFromSmallStrLoop (by omega)]

lemma arFromSmallStr_and {m : BitVec 64} (hm : m.toNat < 2 ^ 8) :
    arFromSmallStr s &&& m = (3#64 ||| BitVec.ofNat 64 s.length <<< 2) &&& m := by
  apply BitVec.eq_of_getLsbD_eq
  intro j hj
  rw [BitVec.getLsbD_and, BitVec.getLsbD_and, getLsbD_arFromSmallStr hlen]
  by_cases h8 : 8 ≤ j
  · have hbit : m.getLsbD j = false := by
      exact Nat.testBit_lt_two_pow (hm.trans_le (Nat.pow_le_pow_right (by decide) h8))
    rw [hbit, Bool.and_false, Bool.and_false]
  · rw [decide_eq_false h8, Bool.false_and, Bool.or_false]

lemma arFromSmallStr_tag :
    arFromSmallStr s &&& arTagMask = 3#64 := by
  rw [arFromSmallStr_and hlen (by decide), and_or_distrib_right,
    shiftLeft_two_and_arTagMask]
  decide

lemma arSmallStrLen_arFromSmallStr :
    arSmallStrLen (arFromSmallStr s) = s.length := by
  have hshift : arFromSmallStr s >>> 2 &&& 7#64 = (arFromSmallStr s &&& 28#64) >>> 2 := by
    rw [BitVec.ushiftRight_and_distrib]
    rfl
  rw [arSmallStrLen, hshift, arFromSmallStr_and hlen (by decide)]
  generalize s.length = n at hlen
  interval_cases n <;> decide

/-- A small string comes back. -/
lemma arToSmallStr_arFromSmallStr :
    arToSmallStr (arFromSmallStr s) = s := by
  rw [arToSmallStr, arSmallStrLen_arFromSmallStr hlen]
  refine ext_getElem (by simp) fun i h1 h2 => ?_
  rw [getElem_map, getElem_range]
  refine UInt8.toBitVec_inj.mp (BitVec.eq_of_getLsbD_eq fun k hk => ?_)
  have hhead : (3#64 ||| BitVec.ofNat 64 s.length <<< 2).getLsbD (8 * (i + 1) + k) = false := by
    refine Nat.testBit_lt_two_pow (lt_of_lt_of_le (b := 2 ^ 8) ?_
      (Nat.pow_le_pow_right (by decide) (by omega)))
    generalize s.length = n at hlen
    interval_cases n <;> decide
  have hbyte : (8 * (i + 1) + k) / 8 - 1 = i := by omega
  have hoff : (8 * (i + 1) + k) % 8 = k := by omega
  rw [BitVec.getLsbD_setWidth, BitVec.getLsbD_ushiftRight, getLsbD_arFromSmallStr hlen, hhead,
    hbyte, hoff]
  simp [hk, h2, show 8 ≤ 8 * (i + 1) + k by omega]

end

/-! ## Heap strings -/

private lemma shortHeader_byte : ∀ a < 128, UInt8.ofNat (0x80 ||| (a &&& 0x7F)) &&& 0x80 ≠ 0 ∧
    (UInt8.ofNat (0x80 ||| (a &&& 0x7F)) &&& 0x7F).toNat = a := by
  decide

private lemma longHeader_byte : ∀ a < 128, UInt8.ofNat a &&& 0x80 = 0 := by
  decide

/-- The header of a heap string has its length, and the content follows it. -/
lemma arStringNew_spec {p : Bytes} (h : arStringNew s = some p) :
    arStringLen p = s.length ∧ (arStringData p).take (arStringLen p) = s := by
  have hdata : arStringLen p = s.length → arStringData p = s →
      arStringLen p = s.length ∧ (arStringData p).take (arStringLen p) = s := by
    intro hlen hcontent
    rw [hlen, hcontent]
    exact ⟨rfl, take_length⟩
  have hhdr : arStringHeaderSize s.length = 2 ↔ s.length ≤ 32767 := by
    unfold arStringHeaderSize
    split_ifs with hle <;> simp [hle]
  unfold arStringNew at h
  split_ifs at h with hmax hle
  · -- two bytes of header
    obtain rfl := some.inj h
    obtain ⟨hmark, hhigh⟩ := shortHeader_byte (s.length >>> 8)
      (by rw [Nat.shiftRight_eq_div_pow]; omega)
    have hlow : s.length &&& 0xFF = s.length % 256 := Nat.and_two_pow_sub_one_eq_mod _ 8
    have hshort : arStringShort (UInt8.ofNat (0x80 ||| (s.length >>> 8 &&& 0x7F)) ::
        UInt8.ofNat (s.length &&& 0xFF) :: s) = true := by
      simpa [arStringShort] using hmark
    refine hdata ?_ (by rw [arStringData, if_pos hshort]; rfl)
    rw [arStringLen, if_pos hshort, headD_cons, hhigh]
    simp only [getD_cons_succ, getD_cons_zero, hlow, toNat_ofNat_mod]
    rw [← Nat.shiftLeft_add_eq_or_of_lt (Nat.mod_lt _ (by decide)), Nat.shiftLeft_eq,
      Nat.shiftRight_eq_div_pow]
    exact Nat.div_add_mod' _ _
  · -- eight bytes of header, the first one below `0x80`
    obtain rfl := some.inj h
    have hmark := longHeader_byte (s.length / 256 ^ 7 % 256) (by omega)
    have hshort : ¬ arStringShort (beBytes 8 s.length ++ s) = true := by
      rw [beBytes_succ_eq_cons]
      simpa [arStringShort] using hmark
    refine hdata ?_ ?_
    · rw [arStringLen, if_neg hshort, take_left' (length_beBytes 8 _),
        ofBeBytes_beBytes (hmax.trans (by decide))]
    · rw [arStringData, if_neg hshort, drop_left' (length_beBytes 8 _)]

/-! ## The round trip -/

/-- The four ways `arEncode` stores a string. -/
lemma arEncode_cases (h : arEncode ft s = some v) :
    (∃ i, string2ll s = some i ∧ arIntFits i ∧ v = .imm (arFromInt i)) ∨
      arTryEncodeFloat ft s = some v ∨
      (s.length ≤ 7 ∧ v = .imm (arFromSmallStr s)) ∨
      ∃ p, arStringNew s = some p ∧ v = .ptr p := by
  unfold arEncode at h
  cases hint : arTryEncodeInt s with
  | some w =>
    rw [hint] at h
    obtain rfl := some.inj h
    left
    unfold arTryEncodeInt at hint
    cases hll : string2ll s with
    | none => simp [hll] at hint
    | some i =>
      simp only [hll] at hint
      split_ifs at hint with hfits
      exact ⟨i, rfl, hfits, (some.inj hint).symm⟩
  | none =>
    right
    cases hfloat : arTryEncodeFloat ft s with
    | some w =>
      simp only [hint, hfloat] at h
      exact .inl h
    | none =>
      right
      simp only [hint, hfloat] at h
      split_ifs at h with hsmall
      · exact .inl ⟨hsmall, (some.inj h).symm⟩
      · obtain ⟨p, hp, rfl⟩ := map_eq_some_iff.mp h
        exact .inr ⟨p, hp, rfl⟩

/-- What `arEncode` stores, `arDecode` gives back. -/
theorem arDecode_arEncode (h : arEncode ft s = some v) : arDecode ft v = some s := by
  obtain ⟨i, hs, hfits, rfl⟩ | hfloat | ⟨hlen, rfl⟩ | ⟨p, hp, rfl⟩ := arEncode_cases h
  · rw [arDecode, if_pos (arFromInt_tag i), arToInt_arFromInt hfits,
      ll2string_string2ll hs (by decide)]
  · obtain ⟨d, rfl, htext⟩ := arFormatFloat_of_encoded hfloat
    rw [arDecode, arFromFloatBits_tag, if_neg (by decide), if_pos rfl, htext]
  · rw [arDecode, arFromSmallStr_tag hlen, if_neg (by decide), if_neg (by decide), if_pos rfl,
      arToSmallStr_arFromSmallStr hlen]
  · rw [arDecode, (arStringNew_spec hp).2]

/-! ## Tagged words -/

end RainCall
