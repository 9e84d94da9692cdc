import RainCall.Foundation.Decimal

/-!
# Integers as text

`util.c`: `digits10`, `ull2string`, `ll2string` and `string2ll`. Texts are lists of bytes; the
result `0` of the two printing functions (the buffer is too small) is the empty text.
-/

namespace RainCall

open List

def ullongMax : ℕ := 2 ^ 64 - 1

def llongMax : ℕ := 2 ^ 63 - 1

/-- `LONG_STR_SIZE`: bytes for the text of a long and the terminator. -/
def longStrSize : ℕ := 21

/-! ## Printing -/

/-- The recursion of `digits10`, with the number of calls bounded. -/
def digits10Aux : ℕ → ℕ → ℕ
  | 0, _ => 0
  | fuel + 1, v =>
    if v < 10 then 1
    else if v < 100 then 2
    else if v < 1000 then 3
    else if v < 1000000000000 then
      if v < 100000000 then
        if v < 1000000 then
          if v < 10000 then 4
          else 5 + (if v ≥ 100000 then 1 else 0)
        else 7 + (if v ≥ 10000000 then 1 else 0)
      else if v < 10000000000 then 9 + (if v ≥ 1000000000 then 1 else 0)
      else 11 + (if v ≥ 100000000000 then 1 else 0)
    else 12 + digits10Aux fuel (v / 1000000000000)

/-- `digits10`: the number of decimal digits. A 64-bit number takes at most two calls. -/
def digits10 (v : ℕ) : ℕ := digits10Aux 2 v

/-- The two characters the table `digits` of `ull2string` has for a number below 100. -/
def digitPair (i : ℕ) : Bytes := [digitChar (i / 10), digitChar (i % 10)]

/-- The loop of `ull2string`, filling the buffer from its end two digits at a time: `acc` is what
is written so far. -/
def ull2stringLoop : ℕ → ℕ → Bytes → Bytes
  | 0, _, acc => acc
  | fuel + 1, value, acc =>
    if value ≥ 100 then ull2stringLoop fuel (value / 100) (digitPair (value % 100) ++ acc)
    else if value < 10 then digitChar value :: acc
    else digitPair value ++ acc

/-- `ull2string`; a 64-bit number has at most ten pairs of digits. -/
def ull2string (dstlen value : ℕ) : Bytes :=
  if digits10 value ≥ dstlen then [] else ull2stringLoop 10 value []

/-- `ll2string`: a sign, if any, and the absolute value. -/
def ll2string (dstlen : ℕ) (svalue : ℤ) : Bytes :=
  if svalue < 0 then
    if dstlen < 2 then []
    else
      let text := ull2string (dstlen - 1) svalue.natAbs
      if text.length = 0 then [] else 45 :: text
  else ull2string dstlen svalue.natAbs

/-! ## Parsing -/

/-- The digit loop of `string2ll`: the value so far and the unread bytes, or `none` on overflow of
an unsigned 64-bit number. -/
def string2llDigits : ℕ → Bytes → Option (ℕ × Bytes)
  | v, [] => some (v, [])
  | v, c :: cs =>
    if IsDigit c then
      if v > ullongMax / 10 then none
      else if v * 10 > ullongMax - digitVal c then none
      else string2llDigits (v * 10 + digitVal c) cs
    else some (v, c :: cs)

/-- `string2ll` from the first digit on. -/
def string2llUnsigned (negative : Bool) : Bytes → Option ℤ
  | [] => none
  | c :: cs =>
    if 49 ≤ c ∧ c ≤ 57 then
      match string2llDigits (digitVal c) cs with
      | none => none
      | some (_, _ :: _) => none
      | some (v, []) =>
        if negative then
          if v > llongMax + 1 then none else some (-v)
        else if v > llongMax then none
        else some v
    else none

def string2ll (s : Bytes) : Option ℤ :=
  if s.length = 0 ∨ s.length ≥ longStrSize then none
  else if s = [48] then some 0
  else
    match s with
    | 45 :: p => string2llUnsigned true p
    | p => string2llUnsigned false p

/-! ## The printed text is the decimal text -/

/-- The recursion counts the digits, twelve in each call. -/
lemma digits10Aux_eq {fuel v : ℕ} (hv : v < 1000000000000 ^ fuel) (hfuel : fuel ≠ 0) :
    digits10Aux fuel v = (decimal v).length := by
  induction fuel generalizing v with
  | zero => exact absurd rfl hfuel
  | succ fuel ih =>
    rw [digits10Aux]
    split_ifs with h1 h2 h3 h4 h5 h6 h7 h8 h9 h10 h11 h12
    · rw [decimal_of_lt_ten h1]
      rfl
    all_goals try exact (length_decimal (by omega) (by omega)).symm
    have hquot : v / 1000000000000 < 1000000000000 ^ fuel :=
      Nat.div_lt_of_lt_mul (by rwa [pow_succ, Nat.mul_comm] at hv)
    have hne : fuel ≠ 0 := by
      rintro rfl
      omega
    rw [ih hquot hne, length_decimal_div (v := v) 12 (by omega)]
    norm_num

lemma digits10_eq {v : ℕ} (hv : v < 2 ^ 64) : digits10 v = (decimal v).length :=
  digits10Aux_eq (hv.trans (by decide)) (by decide)

/-- The text of a number with at least two digits ends with the pair of its last two. -/
lemma decimal_div_hundred {v : ℕ} (hv : 100 ≤ v) :
    decimal v = decimal (v / 100) ++ digitPair (v % 100) := by
  have hdiv : v / 10 / 10 = v / 100 := Nat.div_div_eq_div_mul v 10 10
  have htens : v % 100 / 10 = v / 10 % 10 := by omega
  have hones : v % 100 % 10 = v % 10 := by omega
  rw [decimal_div_ten (by omega), decimal_div_ten (by omega), hdiv, digitPair, htens,
    hones, append_assoc]
  rfl

/-- The loop writes the decimal text in front of what is there. -/
lemma ull2stringLoop_eq {fuel value : ℕ} (hfuel : value < 100 ^ fuel) (hne : fuel ≠ 0)
    (acc : Bytes) :
    ull2stringLoop fuel value acc = decimal value ++ acc := by
  induction fuel generalizing value acc with
  | zero => exact absurd rfl hne
  | succ fuel ih =>
    rw [ull2stringLoop]
    split_ifs with hbig hsmall
    · have hquot : value / 100 < 100 ^ fuel :=
        Nat.div_lt_of_lt_mul (by rwa [pow_succ, Nat.mul_comm] at hfuel)
      have hne' : fuel ≠ 0 := by
        rintro rfl
        omega
      rw [ih hquot hne', decimal_div_hundred hbig, append_assoc]
    · rw [decimal_of_lt_ten hsmall]
      rfl
    · have hone : value / 10 < 10 := by omega
      rw [decimal_div_ten (by omega), decimal_of_lt_ten hone]
      rfl

variable {v : ℤ} {dstlen : ℕ} {s : Bytes}

/-- `ull2string` prints the decimal text if there is room for it and for the terminator. -/
lemma ull2string_eq {value : ℕ} (hv : value < 2 ^ 64) (h : (decimal value).length < dstlen) :
    ull2string dstlen value = decimal value := by
  rw [ull2string, digits10_eq hv, if_neg (by omega),
    ull2stringLoop_eq (hv.trans (by decide)) (by decide), append_nil]

/-- The signed decimal text. -/
def signedDecimal (v : ℤ) : Bytes :=
  if v < 0 then 45 :: decimal v.natAbs else decimal v.natAbs

/-- `ll2string` prints the signed decimal text if there is room for it and for the terminator. -/
lemma ll2string_eq (hv : v.natAbs < 2 ^ 64) (hlen : (signedDecimal v).length < dstlen) :
    ll2string dstlen v = signedDecimal v := by
  have hpos := length_decimal_pos v.natAbs
  unfold ll2string
  unfold signedDecimal at hlen ⊢
  split_ifs at hlen ⊢ with hneg hshort
  · rw [length_cons] at hlen
    omega
  · rw [length_cons] at hlen
    simp only [ull2string_eq hv (show (decimal v.natAbs).length < dstlen - 1 by omega),
      if_neg hpos.ne']
  · exact ull2string_eq hv hlen

/-- The signed decimal text of a 64-bit number has at most 21 characters. -/
lemma length_signedDecimal_le (hv : v.natAbs < 2 ^ 64) : (signedDecimal v).length ≤ 21 := by
  have hle : (decimal v.natAbs).length ≤ 20 := length_decimal_le (by decide) (hv.trans (by decide))
  unfold signedDecimal
  split_ifs
  · exact Nat.succ_le_succ hle
  · exact hle.trans (by decide)

/-! ## What is parsed is the decimal text -/

/-- The digit loop reads a number whose text continues the text of the value so far. -/
lemma string2llDigits_spec {v v' : ℕ} {cs rest : Bytes} (hv : 0 < v)
    (h : string2llDigits v cs = some (v', rest)) :
    0 < v' ∧ ∃ used, cs = used ++ rest ∧ decimal v' = decimal v ++ used := by
  induction cs generalizing v with
  | nil =>
    obtain ⟨rfl, rfl⟩ : v = v' ∧ [] = rest := by simpa [string2llDigits] using h
    exact ⟨hv, [], rfl, (append_nil _).symm⟩
  | cons c cs ih =>
    rw [string2llDigits] at h
    split_ifs at h with hdigit hmul hadd
    · obtain ⟨hpos, used, hcs, hdec⟩ := ih (by omega) h
      refine ⟨hpos, c :: used, by rw [hcs]; rfl, ?_⟩
      rw [hdec, decimal_mul_ten_add hv (digitVal_lt hdigit), digitChar_digitVal hdigit,
        append_assoc]
      rfl
    · obtain ⟨rfl, rfl⟩ : v = v' ∧ c :: cs = rest := by simpa using h
      exact ⟨hv, [], rfl, (append_nil _).symm⟩

/-- From the first digit on, the parsed text is the decimal text of the absolute value. -/
lemma string2llUnsigned_spec {negative : Bool} (h : string2llUnsigned negative s = some v) :
    s = decimal v.natAbs ∧ v.natAbs ≤ llongMax + 1 ∧
      (if negative then v < 0 else 0 < v ∧ v.natAbs ≤ llongMax) := by
  cases s with
  | nil => simp [string2llUnsigned] at h
  | cons c cs =>
    by_cases hc : 49 ≤ c ∧ c ≤ 57
    swap
    · simp [string2llUnsigned, hc] at h
    rw [string2llUnsigned, if_pos hc] at h
    have hdigit : IsDigit c := ⟨UInt8.le_trans (show (48 : UInt8) ≤ 49 by decide) hc.1, hc.2⟩
    have hpos : 0 < digitVal c := by
      have : 49 ≤ c.toNat := UInt8.le_iff_toNat_le.mp hc.1
      simp only [digitVal]
      omega
    cases hd : string2llDigits (digitVal c) cs with
    | none => simp [hd] at h
    | some p =>
      obtain ⟨n, rest⟩ := p
      obtain ⟨hn, used, hcs, hdec⟩ := string2llDigits_spec hpos hd
      rw [decimal_of_lt_ten (digitVal_lt hdigit), digitChar_digitVal hdigit] at hdec
      cases rest with
      | cons => simp [hd] at h
      | nil =>
        rw [append_nil] at hcs
        subst hcs
        cases negative with
        | true =>
          simp only [hd, if_true] at h
          split_ifs at h with hover
          obtain rfl := Option.some.inj h
          simp only [if_true, Int.natAbs_neg]
          exact ⟨hdec.symm, by omega, by omega⟩
        | false =>
          simp only [hd, Bool.false_eq_true, if_false] at h
          split_ifs at h with hover
          obtain rfl := Option.some.inj h
          exact ⟨hdec.symm, by omega, by omega, by omega⟩

/-- A text `string2ll` accepts is the signed decimal text of its value. -/
lemma string2ll_spec (h : string2ll s = some v) :
    s = signedDecimal v ∧ s.length < longStrSize ∧ -(2 ^ 63) ≤ v ∧ v < 2 ^ 63 := by
  have hmax : llongMax = 2 ^ 63 - 1 := rfl
  unfold string2ll at h
  by_cases hlen : s.length = 0 ∨ s.length ≥ longStrSize
  · rw [if_pos hlen] at h
    exact absurd h (by simp)
  rw [if_neg hlen] at h
  refine and_left_comm.mp ⟨by omega, ?_⟩
  split_ifs at h with hzero
  · obtain rfl := Option.some.inj h
    exact ⟨hzero, by decide, by decide⟩
  · split at h
    · obtain ⟨htext, hle, hneg⟩ := string2llUnsigned_spec h
      simp only [if_true] at hneg
      exact ⟨by rw [signedDecimal, if_pos hneg, htext], by omega, by omega⟩
    · obtain ⟨htext, -, hpos, hle⟩ := string2llUnsigned_spec h
      exact ⟨by rw [signedDecimal, if_neg (by omega)]; exact htext, by omega, by omega⟩

/-- Parsing is strict: printing the parsed value gives the text back. -/
theorem ll2string_string2ll (h : string2ll s = some v) (hlen : longStrSize ≤ dstlen) :
    ll2string dstlen v = s := by
  obtain ⟨htext, hshort, hge, hlt⟩ := string2ll_spec h
  rw [ll2string_eq (by omega) (by rw [← htext]; omega), htext]

/-! ## What is printed is parsed -/

/-- The digit loop reads one more digit. -/
lemma string2llDigits_append {v w : ℕ} {cs : Bytes} {c : UInt8} (hc : IsDigit c)
    (h : string2llDigits v cs = some (w, [])) (hle : w * 10 + digitVal c ≤ ullongMax) :
    string2llDigits v (cs ++ [c]) = some (w * 10 + digitVal c, []) := by
  induction cs generalizing v with
  | nil =>
    obtain ⟨rfl, -⟩ : v = w ∧ True := by simpa [string2llDigits] using h
    have hdiv : ¬ v > ullongMax / 10 := by omega
    rw [nil_append, string2llDigits, if_pos hc, if_neg hdiv, if_neg (by omega)]
    rfl
  | cons d cs ih =>
    rw [cons_append, string2llDigits]
    rw [string2llDigits] at h
    split_ifs at h ⊢ with hdigit hmul hadd
    · exact ih h
    · simp at h

lemma string2llDigits_decimal {n : ℕ} (hpos : 0 < n) (hle : n ≤ ullongMax) :
    ∃ c cs, decimal n = c :: cs ∧ (49 ≤ c ∧ c ≤ 57) ∧
      string2llDigits (digitVal c) cs = some (n, []) := by
  induction n using Nat.strong_induction_on with
  | _ n ih =>
    rcases Nat.lt_or_ge n 10 with hlt | hge
    · refine ⟨digitChar n, [], decimal_of_lt_ten hlt, ?_, ?_⟩
      · interval_cases n <;> decide
      · rw [digitVal_digitChar hlt]
        rfl
    · obtain ⟨c, cs, hdec, hc, hread⟩ := ih (n / 10) (by omega) (by omega) (by omega)
      have hmod : n % 10 < 10 := Nat.mod_lt _ (by decide)
      have hsum : n / 10 * 10 + digitVal (digitChar (n % 10)) = n := by
        rw [digitVal_digitChar hmod]
        omega
      refine ⟨c, cs ++ [digitChar (n % 10)], ?_, hc, ?_⟩
      · rw [decimal_div_ten hge, hdec]
        rfl
      · rw [string2llDigits_append (isDigit_digitChar hmod) hread (by omega), hsum]

lemma string2ll_signedDecimal (hge : -(2 ^ 63) ≤ v) (hlt : v < 2 ^ 63) :
    string2ll (signedDecimal v) = some v := by
  have hmax : llongMax = 2 ^ 63 - 1 := rfl
  have humax : ullongMax = 2 ^ 64 - 1 := rfl
  have hlen : (decimal v.natAbs).length ≤ 19 := length_decimal_le (by decide) (by omega)
  have hpos := length_decimal_pos v.natAbs
  by_cases hzero : v = 0
  · rw [hzero]
    rfl
  obtain ⟨c, cs, hdec, hc, hread⟩ := string2llDigits_decimal (n := v.natAbs) (by omega) (by omega)
  rw [hdec, length_cons] at hlen
  by_cases hneg : v < 0
  · have htext : signedDecimal v = 45 :: c :: cs := by rw [signedDecimal, if_pos hneg, hdec]
    rw [htext, string2ll, if_neg (by simp [longStrSize]; omega), if_neg (by simp)]
    simp only [string2llUnsigned, if_pos hc, hread, if_true]
    rw [if_neg (by omega)]
    exact congrArg some (by omega)
  · have htext : signedDecimal v = c :: cs := by rw [signedDecimal, if_neg (by omega), hdec]
    have hne : c ≠ 45 := by
      rintro rfl
      exact absurd hc.1 (by decide)
    have hne' : c :: cs ≠ [48] := by
      intro h
      rw [(cons.inj h).1] at hc
      exact absurd hc.1 (by decide)
    rw [htext, string2ll, if_neg (by simp [longStrSize]; omega), if_neg hne']
    · simp only [string2llUnsigned, if_pos hc, hread, Bool.false_eq_true, if_false]
      rw [if_neg (by omega)]
      exact congrArg some (by omega)
    · exact fun p hp => hne (cons.inj hp).1

/-! ## The buffer -/

/-- The buffer `dst` after `ull2string`, and what is returned. -/
def ull2stringBuffer (dst : Bytes) (value : ℕ) : Bytes × ℕ :=
  let text := ull2string dst.length value
  if text = [] then (dst.set 0 0, 0)
  else (text ++ 0 :: dst.drop (text.length + 1), text.length)

/-- The buffer `dst` after `ll2string`, and what is returned. The sign is written before it is
known whether there is room for the digits. -/
def ll2stringBuffer (dst : Bytes) (svalue : ℤ) : Bytes × ℕ :=
  if svalue < 0 then
    if dst.length < 2 then (dst.set 0 0, 0)
    else
      let (rest, length) := ull2stringBuffer dst.tail svalue.natAbs
      (45 :: rest, if length = 0 then 0 else length + 1)
  else ull2stringBuffer dst svalue.natAbs

/-- The text and its terminator if there is room for both, and else the empty string. -/
def printed (text dst : Bytes) : Bytes × ℕ :=
  if text.length < dst.length then (text ++ 0 :: dst.drop (text.length + 1), text.length)
  else (dst.set 0 0, 0)

lemma ull2stringBuffer_eq {value : ℕ} (hv : value < 2 ^ 64) (dst : Bytes) :
    ull2stringBuffer dst value = printed (decimal value) dst := by
  have hne : decimal value ≠ [] := ne_nil_of_length_pos (length_decimal_pos value)
  unfold ull2stringBuffer printed
  by_cases hroom : (decimal value).length < dst.length
  · simp only [ull2string_eq hv hroom, if_neg hne, if_pos hroom]
  · have hnil : ull2string dst.length value = [] := by
      rw [ull2string, digits10_eq hv, if_pos (by omega)]
    simp only [hnil, if_true, if_neg hroom]

/-- A sign for which there is no room but for itself stays in the buffer. -/
lemma ll2stringBuffer_eq_iff {v : ℤ} (hv : v.natAbs < 2 ^ 64) (dst : Bytes) :
    ll2stringBuffer dst v = printed (signedDecimal v) dst ↔
      0 ≤ v ∨ dst.length < 2 ∨ (signedDecimal v).length < dst.length := by
  have hpos := length_decimal_pos v.natAbs
  rw [ll2stringBuffer]
  by_cases hneg : v < 0
  · have htext : signedDecimal v = 45 :: decimal v.natAbs := if_pos hneg
    rw [htext, if_pos hneg, length_cons]
    by_cases hshort : dst.length < 2
    · rw [if_pos hshort, printed, if_neg (by rw [length_cons]; omega)]
      exact iff_of_true rfl (.inr (.inl hshort))
    · rw [if_neg hshort, ull2stringBuffer_eq hv]
      by_cases hroom : (decimal v.natAbs).length + 1 < dst.length
      · refine iff_of_true ?_ (.inr (.inr hroom))
        have hroom' : (decimal v.natAbs).length < dst.tail.length := by
          rw [length_tail]
          omega
        rw [printed, printed, if_pos hroom', if_pos (by rwa [length_cons])]
        simp [hpos.ne']
      · -- the first byte is the sign, and not the terminator
        refine iff_of_false (fun heq => ?_) (by omega)
        have hnone : printed (45 :: decimal v.natAbs) dst = (dst.set 0 0, 0) :=
          if_neg (by rw [length_cons]; omega)
        have hhead := congrArg (fun r => r.1.head?) (heq.trans hnone)
        cases dst with
        | nil => simp at hshort
        | cons b dst => simp at hhead
  · rw [if_neg hneg, signedDecimal, if_neg hneg, ull2stringBuffer_eq hv]
    exact iff_of_true rfl (.inl (not_lt.mp hneg))

/-- The texts that are parsed are the decimal texts of the 64-bit numbers, and these are printed, in
every case but one: a negative number for which a buffer of at least two bytes is too small leaves
its sign in the buffer. -/
theorem string2ll_iff_and_printed (s : Bytes) (v : ℤ) (dst : Bytes) :
    (string2ll s = some v ↔ s = signedDecimal v ∧ -(2 ^ 63) ≤ v ∧ v < 2 ^ 63) ∧
    (∀ value < 2 ^ 64, ull2stringBuffer dst value = printed (decimal value) dst) ∧
    (-(2 ^ 63) ≤ v → v < 2 ^ 63 → (ll2stringBuffer dst v = printed (signedDecimal v) dst ↔
      0 ≤ v ∨ dst.length < 2 ∨ (signedDecimal v).length < dst.length)) := by
  refine ⟨⟨fun h => ?_, ?_⟩, fun value hv => ull2stringBuffer_eq hv dst,
    fun hge hlt => ll2stringBuffer_eq_iff (by omega) dst⟩
  · obtain ⟨htext, -, hrange⟩ := string2ll_spec h
    exact ⟨htext, hrange⟩
  · rintro ⟨rfl, hge, hlt⟩
    exact string2ll_signedDecimal hge hlt

/-- Four bytes are enough for `-12`. -/
theorem string2ll_iff_and_printed_twelve :
    ll2stringBuffer [120, 120, 120, 120] (-12) =
      printed (signedDecimal (-12)) [120, 120, 120, 120] :=
  ((string2ll_iff_and_printed [] (-12) _).2.2 (by decide) (by decide)).mpr (by decide)

/-- For `-12` and three bytes `0` is returned, but the buffer holds the string `-`. -/
theorem ll2stringBuffer_leaves_sign :
    ll2stringBuffer [120, 120, 120] (-12) = ([45, 0, 120], 0) ∧
      printed (signedDecimal (-12)) [120, 120, 120] = ([0, 120, 120], 0) := by
  decide

end RainCall
