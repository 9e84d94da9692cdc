import RainCall.Util.IntegerText

/-!
# Doubles as text

`util.c`: `double2ll` and `d2string`. A double is its 64 IEEE-754 bits. The conversions between
doubles and shortest decimal texts (`fast_float_strtod` and `fpconv_dtoa`, which `string2d` and
`d2string` call) are parameters.
-/

namespace RainCall

/-- The conversions between doubles and texts the server calls. -/
structure FloatText where
  /-- `string2d`: the double a text stands for -/
  string2d : Bytes → Option (BitVec 64)
  /-- `fpconv_dtoa`: the shortest text of a double -/
  fpconvDtoa : BitVec 64 → Bytes
  /-- `fpconv_dtoa` writes to a buffer of 24 bytes -/
  length_fpconvDtoa : ∀ d, (fpconvDtoa d).length ≤ 24

/-- The sign bit. -/
def doubleSign (d : BitVec 64) : Bool := d.msb

/-- The eleven bits of the exponent. -/
def doubleExponent (d : BitVec 64) : ℕ := ((d >>> 52) &&& 0x7ff#64).toNat

/-- The 52 bits of the fraction. -/
def doubleFraction (d : BitVec 64) : ℕ := (d &&& 0xfffffffffffff#64).toNat

/-- `isfinite` -/
def doubleIsFinite (d : BitVec 64) : Bool := doubleExponent d ≠ 0x7ff

/-- `isnan` -/
def doubleIsNan (d : BitVec 64) : Bool := doubleExponent d = 0x7ff ∧ doubleFraction d ≠ 0

/-- `isinf` -/
def doubleIsInf (d : BitVec 64) : Bool := doubleExponent d = 0x7ff ∧ doubleFraction d = 0

/-- The comparison `d == 0`: both zeros. -/
def doubleIsZero (d : BitVec 64) : Bool := doubleExponent d = 0 ∧ doubleFraction d = 0

/-- The absolute value of a finite double, if it is an integer: the significand times two to the
power of the unbiased exponent. -/
def doubleNatAbs (d : BitVec 64) : Option ℕ :=
  let significand := doubleFraction d + if doubleExponent d = 0 then 0 else 2 ^ 52
  let exponent := max (doubleExponent d) 1
  if exponent ≥ 1075 then some (significand * 2 ^ (exponent - 1075))
  else if significand % 2 ^ (1075 - exponent) = 0 then
    some (significand / 2 ^ (1075 - exponent))
  else none

/-- `double2ll`: the integer a finite double is equal to. `(double)(LLONG_MAX/2)` is `2 ^ 62`. -/
def double2ll (d : BitVec 64) : Option ℤ :=
  match doubleNatAbs d with
  | none => none
  | some n => if n > 2 ^ 62 then none else some (if doubleSign d then -n else n)

def d2string (ft : FloatText) (len : ℕ) (d : BitVec 64) : Bytes :=
  if doubleIsNan d then [110, 97, 110]
  else if doubleIsInf d then if doubleSign d then [45, 105, 110, 102] else [105, 110, 102]
  else if doubleIsZero d then if doubleSign d then [45, 48] else [48]
  else
    match double2ll d with
    | some lvalue => ll2string len lvalue
    | none => ft.fpconvDtoa d

lemma double2ll_le {d : BitVec 64} {v : ℤ} (h : double2ll d = some v) : v.natAbs ≤ 2 ^ 62 := by
  unfold double2ll at h
  cases hn : doubleNatAbs d with
  | none => simp [hn] at h
  | some n =>
    rw [hn] at h
    simp only at h
    split_ifs at h with hbig hsign
    all_goals
      obtain rfl := Option.some.inj h
      omega

/-- The text of a double fits a small buffer. -/
lemma length_d2string_le (ft : FloatText) (len : ℕ) (hlen : 22 ≤ len) (d : BitVec 64) :
    (d2string ft len d).length ≤ 24 := by
  unfold d2string
  split_ifs
  any_goals decide
  cases hd : double2ll d with
  | none => exact ft.length_fpconvDtoa d
  | some v =>
    have hv : v.natAbs < 2 ^ 64 := (double2ll_le hd).trans_lt (by decide)
    have hle := length_signedDecimal_le hv
    simp only [ll2string_eq hv (hle.trans_lt hlen)]
    exact hle.trans (by decide)

end RainCall
