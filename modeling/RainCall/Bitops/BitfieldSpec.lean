import RainCall.Bitops.Bitfield

/-!
# The fields of a string

A string stands for the infinite sequence of its bits, followed by zeros. The loops that read and
write fields bit by bit, the two overflow checks and the nine-byte window of GET are shown to be the
operations on that sequence.
-/

namespace RainCall

open Function List
open Int hiding ofNat one_shiftLeft range

open BitfieldOp Nat Option UInt8

/-- The bits of a string, zero-extended. -/
def bitSeq (p : Bytes) (i : ℕ) : Bool :=
  ((p[i / 8]?).getD 0).toNat.testBit (7 - i % 8)

/-- The bits of the string at a key that may be missing. -/
def keyBits (s : Option Bytes) : ℕ → Bool :=
  bitSeq (s.getD [])

/-! ### Reading and writing -/

/-- Writing one bit of a byte. -/
lemma testBit_setBit (b : UInt8) {bit : ℕ} (hbit : bit < 8) (v : Bool) {j : ℕ} (hj : j < 8) :
    ((b &&& ~~~(1 <<< UInt8.ofNat bit)) |||
      ((if v then 1 else 0 : UInt8) <<< UInt8.ofNat bit)).toNat.testBit j =
      if j = bit then v else b.toNat.testBit j := by
  have hmod : (UInt8.ofNat bit).toBitVec % 8 = BitVec.ofNat 8 bit := by
    interval_cases bit <;> rfl
  simp only [UInt8.toNat, BitVec.testBit_toNat]
  interval_cases bit <;> interval_cases j <;> cases v <;> simp

lemma and_one_shiftLeft_ne_zero (value n : ℕ) : value &&& (1 <<< n) ≠ 0 ↔ value.testBit n := by
  rw [one_shiftLeft, and_two_pow]
  cases value.testBit n <;> simp

lemma shiftRight_three (n : ℕ) : n >>> 3 = n / 8 := shiftRight_eq_div_pow n 3

lemma and_seven (n : ℕ) : n &&& 7 = n % 8 := and_two_pow_sub_one_eq_mod n 3

variable {p : Bytes}

/-- Writing one bit of a string. -/
lemma bitSeq_set {off : ℕ} {b : UInt8} (hb : p[off / 8]? = some b) (v : Bool) :
    bitSeq (p.set (off / 8) ((b &&& ~~~(1 <<< ofNat (7 - off % 8))) |||
      ((if v then 1 else 0 : UInt8) <<< ofNat (7 - off % 8)))) =
      update (bitSeq p) off v := by
  have hlt : off / 8 < p.length := (List.getElem?_eq_some_iff.mp hb).1
  funext i
  unfold bitSeq
  by_cases hbyte : i / 8 = off / 8
  · rw [hbyte, List.getElem?_set_self hlt, getD_some,
      testBit_setBit b (by omega) v (by omega)]
    by_cases hi : i = off
    · rw [hi, update_self, if_pos rfl]
    · rw [update_of_ne hi, if_neg (by omega), hbyte, hb, getD_some]
  · have hi : i ≠ off := fun h => hbyte (by rw [h])
    rw [update_of_ne hi, List.getElem?_set_ne (Ne.symm hbyte)]

variable {offset bits : ℕ}

lemma setUnsignedBitfield_spec (h : offset + bits ≤ 8 * p.length) (value : ℕ) :
    ∃ p', setUnsignedBitfield p offset bits value = some p' ∧ p'.length = p.length ∧
      bitSeq p' = writeField (bitSeq p) offset bits value := by
  induction bits generalizing p offset with
  | zero =>
    refine ⟨p, rfl, rfl, ?_⟩
    funext i
    rw [writeField, if_neg (by omega)]
  | succ bits ih =>
    have hlt : offset / 8 < p.length := by omega
    have hb : p[offset / 8]? = some p[offset / 8] := getElem?_eq_getElem hlt
    have hbit : (if value &&& (1 <<< bits) ≠ 0 then 1 else 0 : UInt8) =
        if value.testBit bits then 1 else 0 := by
      simp only [and_one_shiftLeft_ne_zero]
    have hroom : offset + 1 + bits ≤ 8 * (p.set (offset / 8)
        ((p[offset / 8] &&& ~~~(1 <<< ofNat (7 - offset % 8))) |||
          ((if value.testBit bits then 1 else 0 : UInt8) <<< ofNat (7 - offset % 8)))).length := by
      rw [length_set]
      omega
    obtain ⟨p', hp', hlen, hbits⟩ := ih hroom
    refine ⟨p', ?_, hlen.trans (length_set ..), ?_⟩
    · rw [setUnsignedBitfield]
      simp only [hbit, shiftRight_three, and_seven, hb]
      exact hp'
    · rw [hbits, bitSeq_set hb, writeField_succ]

/-- The loop of `getUnsignedBitfield` appends the field to the bits read so far. -/
lemma getUnsignedBitfieldLoop_spec {value : ℕ} (h : offset + bits ≤ 8 * p.length)
    (hvalue : (value + 1) * 2 ^ bits ≤ 2 ^ 64) :
    getUnsignedBitfieldLoop p offset bits value =
      some (value * 2 ^ bits + fieldNat (bitSeq p) offset bits) := by
  induction bits generalizing offset value with
  | zero => simp [getUnsignedBitfieldLoop, fieldNat]
  | succ bits ih =>
    have hlt : offset / 8 < p.length := by omega
    have hb : p[offset / 8]? = some p[offset / 8] := getElem?_eq_getElem hlt
    have hbit : (p[offset / 8].toNat >>> (7 - offset % 8)) &&& 1 = (bitSeq p offset).toNat := by
      rw [bitSeq, hb, Option.getD_some, Nat.toNat_testBit, Nat.and_one_is_mod,
        Nat.shiftRight_eq_div_pow]
    have hle : (bitSeq p offset).toNat ≤ 1 := Bool.toNat_le _
    have hor : value <<< 1 ||| (bitSeq p offset).toNat = 2 * value + (bitSeq p offset).toNat := by
      have := Nat.two_pow_add_eq_or_of_lt (i := 1) (b := (bitSeq p offset).toNat) (by omega) value
      rw [Nat.shiftLeft_eq, Nat.mul_comm, ← this]
    have hstep : (2 * value + (bitSeq p offset).toNat + 1) * 2 ^ bits ≤ 2 ^ 64 := by
      calc (2 * value + (bitSeq p offset).toNat + 1) * 2 ^ bits
          ≤ (2 * (value + 1)) * 2 ^ bits := Nat.mul_le_mul_right _ (by omega)
        _ = (value + 1) * 2 ^ (bits + 1) := by ring
        _ ≤ 2 ^ 64 := hvalue
    have hsmall : 2 * value + (bitSeq p offset).toNat < 2 ^ 64 := by
      have hpos : 1 ≤ 2 ^ bits := Nat.one_le_two_pow
      nlinarith
    rw [getUnsignedBitfieldLoop]
    simp only [shiftRight_three, and_seven, hb, Option.bind_eq_bind, Option.bind_some, hbit, hor]
    rw [Nat.mod_eq_of_lt hsmall, ih (by omega) hstep, fieldNat_succ']
    congr 1
    ring

lemma getUnsignedBitfield_spec (h : offset + bits ≤ 8 * p.length) (hbits : bits ≤ 64) :
    getUnsignedBitfield p offset bits = some (fieldNat (bitSeq p) offset bits) := by
  rw [getUnsignedBitfield, getUnsignedBitfieldLoop_spec h]
  · simp
  · simpa using Nat.pow_le_pow_right (by omega : 0 < 2) hbits

lemma bitSeq_injective {q : Bytes} (hlen : p.length = q.length) (h : bitSeq p = bitSeq q) :
    p = q := by
  refine ext_getElem hlen fun i hp hq => UInt8.toNat_inj.mp ?_
  refine Nat.eq_of_testBit_eq fun j => ?_
  by_cases hj : j < 8
  · have hbit := congrFun h (8 * i + (7 - j))
    have hdiv : (8 * i + (7 - j)) / 8 = i := by omega
    have hmod : 7 - (8 * i + (7 - j)) % 8 = j := by omega
    unfold bitSeq at hbit
    rw [hdiv, hmod, getElem?_eq_getElem hp, getElem?_eq_getElem hq] at hbit
    exact hbit
  · have hlt : ∀ b : UInt8, b.toNat.testBit j = false := fun b =>
      Nat.testBit_lt_two_pow
        (lt_of_lt_of_le b.toNat_lt (Nat.pow_le_pow_right (by omega) (by omega)))
    rw [hlt, hlt]

/-! ### Casts -/

lemma two_pow_le_two_pow {a b : ℕ} (h : a ≤ b) : (2 : ℕ) ^ a ≤ 2 ^ b :=
  Nat.pow_le_pow_right (by omega) h

lemma and_low_bits {c : ℕ} (hbits : bits ≤ 64) :
    c &&& (2 ^ 64 - 1 - (2 ^ 64 - 1) <<< bits % 2 ^ 64) = c % 2 ^ bits := by
  have hmask : (2 ^ 64 - 1) <<< bits % 2 ^ 64 = 2 ^ 64 - 2 ^ bits := by
    have := or_high_bits hbits (Nat.two_pow_pos 64)
    simpa using this
  have hle : 2 ^ bits ≤ 2 ^ 64 := two_pow_le_two_pow hbits
  rw [hmask, show 2 ^ 64 - 1 - (2 ^ 64 - 2 ^ bits) = 2 ^ bits - 1 by omega,
    Nat.and_two_pow_sub_one_eq_mod]

/-- Sign extension: the bits above the low `bits` are copies of the highest one. -/
lemma signExtend_eq {c : ℕ} (hpos : 0 < bits) (hbits : bits ≤ 64) (hc : c < 2 ^ 64) :
    (if c.testBit (bits - 1) then toI64 (c ||| ((2 ^ 64 - 1) <<< bits % 2 ^ 64) : ℕ)
      else toI64 (c % 2 ^ bits : ℕ)) = (c : ℤ).bmod (2 ^ bits) := by
  have hlt : c % 2 ^ bits < 2 ^ bits := Nat.mod_lt _ (Nat.two_pow_pos bits)
  have hbit : (c % 2 ^ bits).testBit (bits - 1) = c.testBit (bits - 1) := by
    simp [show bits - 1 < bits by omega]
  have hbmod : (c : ℤ).bmod (2 ^ bits) = ((c % 2 ^ bits : ℕ) : ℤ).bmod (2 ^ bits) := by
    exact (emod_bmod ..).symm
  rw [hbmod, bmod_two_pow hlt hpos, hbit]
  have hle : 2 ^ bits ≤ 2 ^ 64 := two_pow_le_two_pow hbits
  have hhalf : c.testBit (bits - 1) = decide (2 ^ bits ≤ 2 * (c % 2 ^ bits)) := by
    rw [← hbit, testBit_highest hlt hpos]
  rw [or_high_bits hbits hc]
  generalize c % 2 ^ bits = u at *
  generalize 2 ^ bits = M at *
  norm_num at hle
  by_cases hmsb : c.testBit (bits - 1)
  · have h2 : M ≤ 2 * u := by simpa [hmsb] using hhalf
    rw [if_pos hmsb, if_pos hmsb, toI64_eq]
    push_cast [hle]
    split_ifs <;> omega
  · have h2 : 2 * u < M := by simpa [hmsb] using hhalf
    rw [if_neg hmsb, if_neg hmsb, toI64_eq]
    split_ifs <;> omega

lemma getSignedBitfield_spec (h : offset + bits ≤ 8 * p.length) (hpos : 0 < bits)
    (hbits : bits ≤ 64) :
    getSignedBitfield p offset bits =
      some ((fieldNat (bitSeq p) offset bits : ℤ).bmod (2 ^ bits)) := by
  have hlt := fieldNat_lt (bitSeq p) offset bits
  have hlt64 := lt_of_lt_of_le hlt (two_pow_le_two_pow hbits)
  unfold getSignedBitfield
  simp only [getUnsignedBitfield_spec h hbits, bind_eq_bind, bind_some,
    and_one_shiftLeft_ne_zero]
  rcases lt_or_ge bits 64 with hsmall | hbig
  · rw [← signExtend_eq hpos hbits hlt64, mod_eq_of_lt hlt]
    by_cases hmsb : (fieldNat (bitSeq p) offset bits).testBit (bits - 1)
    · rw [if_pos ⟨hsmall, hmsb⟩, if_pos hmsb]
    · rw [if_neg fun hc => hmsb hc.2, if_neg hmsb]
  · obtain rfl : bits = 64 := by omega
    rw [if_neg fun hc => absurd hc.1 (lt_irrefl _)]
    rfl

/-! ### The operations on the sequence -/

namespace BitfieldOp

/-- The types `i1` to `i64` and `u1` to `u63`, and a 64-bit argument. -/
structure Valid (op : BitfieldOp) : Prop where
  pos : 0 < op.bits
  le : op.bits ≤ if op.sign then 64 else 63
  ge_i64 : -2 ^ 63 ≤ op.i64
  lt_i64 : op.i64 < 2 ^ 63

instance (op : BitfieldOp) : Decidable op.Valid :=
  decidable_of_iff (0 < op.bits ∧ (op.bits ≤ if op.sign then 64 else 63) ∧ -2 ^ 63 ≤ op.i64 ∧
    op.i64 < 2 ^ 63) ⟨fun h => ⟨h.1, h.2.1, h.2.2.1, h.2.2.2⟩, fun h => ⟨h.1, h.2, h.3, h.4⟩⟩

/-- The integer in the field of the operation. -/
def read (op : BitfieldOp) (σ : ℕ → Bool) : ℤ :=
  if op.sign then (fieldNat σ op.offset op.bits : ℤ).bmod (2 ^ op.bits)
  else fieldNat σ op.offset op.bits

/-- The least integer of the type. -/
def lo (op : BitfieldOp) : ℤ := if op.sign then -2 ^ (op.bits - 1) else 0

/-- The greatest integer of the type. -/
def hi (op : BitfieldOp) : ℤ := if op.sign then 2 ^ (op.bits - 1) - 1 else 2 ^ op.bits - 1

/-- The mathematical result of SET or INCRBY; the argument of SET is read as an unsigned number if
the type is unsigned. -/
def result (op : BitfieldOp) (σ : ℕ → Bool) : ℤ :=
  if op.opcode = .incrby then op.read σ + op.i64
  else if op.sign then op.i64 else op.i64 % 2 ^ 64

/-- The result can be stored as it is. -/
def fits (op : BitfieldOp) (x : ℤ) : Prop := op.lo ≤ x ∧ x ≤ op.hi

instance (op : BitfieldOp) (x : ℤ) : Decidable (op.fits x) :=
  inferInstanceAs (Decidable (_ ∧ _))

/-- The result modulo `2 ^ bits`. -/
def wrapped (op : BitfieldOp) (x : ℤ) : ℤ :=
  if op.sign then x.bmod (2 ^ op.bits) else x % 2 ^ op.bits

/-- What is stored for the result `x`, or `none` if the operation fails. -/
def stored (op : BitfieldOp) (x : ℤ) : Option ℤ :=
  if op.fits x then some x
  else match op.owtype with
    | .wrap => some (op.wrapped x)
    | .sat => some (if x < op.lo then op.lo else op.hi)
    | .fail => none

/-- One operation on the sequence of bits, with the reply. -/
def exec (st : BitfieldOp → ℤ → Option ℤ) (op : BitfieldOp) (σ : ℕ → Bool) :
    Option ℤ × (ℕ → Bool) :=
  if op.opcode = .get then (some (op.read σ), σ)
  else match st op (op.result σ) with
    | none => (none, σ)
    | some v => (some (if op.opcode = .incrby then v else op.read σ),
        writeField σ op.offset op.bits (v % 2 ^ op.bits).toNat)

/-- The operations in order, with the list of replies. -/
def run (st : BitfieldOp → ℤ → Option ℤ) : List BitfieldOp → (ℕ → Bool) →
    List (Option ℤ) × (ℕ → Bool)
  | [], σ => ([], σ)
  | op :: ops, σ =>
    ((op.exec st σ).1 :: (run st ops (op.exec st σ).2).1, (run st ops (op.exec st σ).2).2)

/-- SET to a signed type under `OVERFLOW SAT` with an argument so small that the greatest value of
the type minus the argument is not an `int64_t`. -/
def clampsUp (op : BitfieldOp) : Bool :=
  op.opcode = .set ∧ op.sign ∧ op.owtype = .sat ∧ op.bits ≠ 64 ∧
    op.i64 < -2 ^ 63 + 2 ^ (op.bits - 1)

/-- What the code stores: the arguments of `clampsUp` are clamped to the wrong side. -/
def storedByCode (op : BitfieldOp) (x : ℤ) : Option ℤ :=
  if op.clampsUp then some op.hi else op.stored x

end BitfieldOp

/-! ### The overflow checks -/

lemma two_pow_succ_pred (hpos : 0 < bits) : (2 : ℤ) ^ bits = 2 * 2 ^ (bits - 1) := by
  obtain ⟨m, rfl⟩ : ∃ m, bits = m + 1 := ⟨bits - 1, by omega⟩
  rw [Nat.add_sub_cancel]
  ring

/-- `checkUnsignedBitfieldOverflow` compares the sum with the range of the type. -/
lemma checkUnsigned_spec {value : ℕ} {incr : ℤ} (hpos : 0 < bits) (hbits : bits ≤ 63)
    (hvalue : value < 2 ^ bits ∨ incr = 0) (hge : -2 ^ 63 ≤ incr) (hlt : incr < 2 ^ 63)
    (owtype : BfOverflow) :
    ((checkUnsignedBitfieldOverflow value incr bits owtype).1 = 0 ↔
      0 ≤ value + incr ∧ value + incr ≤ 2 ^ bits - 1) ∧
    ((checkUnsignedBitfieldOverflow value incr bits owtype).1 ≠ 0 →
      ((checkUnsignedBitfieldOverflow value incr bits owtype).2 : ℤ) = match owtype with
        | .wrap => (value + incr) % 2 ^ bits
        | .sat => if value + incr < 0 then 0 else 2 ^ bits - 1
        | .fail => 0) := by
  have hwrap : ((toU64 (value + incr) &&& (2 ^ 64 - 1 - (2 ^ 64 - 1) <<< bits % 2 ^ 64) : ℕ) : ℤ) =
      (value + incr) % 2 ^ bits := by
    rw [and_low_bits (by omega), toU64_mod _ (by omega)]
  have hM : 2 ^ bits ≤ 2 ^ 63 := two_pow_le_two_pow hbits
  have hM1 : 1 ≤ 2 ^ bits := Nat.one_le_two_pow
  have hcast : ((2 : ℤ) ^ bits) = ((2 ^ bits : ℕ) : ℤ) := by push_cast; rfl
  unfold checkUnsignedBitfieldOverflow
  simp only [if_neg (show bits ≠ 64 by omega)]
  rw [hcast] at hwrap ⊢
  generalize toU64 (value + incr) &&& (2 ^ 64 - 1 - (2 ^ 64 - 1) <<< bits % 2 ^ 64) = w at *
  generalize 2 ^ bits = M at *
  -- the first comparison finds the sums above the range, the second one those below it
  have hover : (value > M - 1 ∨ incr > 0 ∧ incr > toI64 ((M - 1 : ℕ) - (value : ℤ))) ↔
      (M : ℤ) - 1 < value + incr := by
    by_cases hv : value < M
    · rw [toI64_of_mem (by omega) (by omega)]
      omega
    · omega
  have hunder : value < M → (incr < 0 ∧ incr < toI64 (-(value : ℤ)) ↔ value + incr < 0) := by
    intro hv
    rw [toI64_of_mem (by omega) (by omega)]
    omega
  by_cases hhigh : (M : ℤ) - 1 < value + incr
  · rw [if_pos (hover.mpr hhigh)]
    refine ⟨⟨fun h => ?_, fun h => by omega⟩, fun _ => ?_⟩
    · cases owtype <;> simp at h
    · cases owtype with
      | wrap => exact hwrap
      | sat =>
        rw [if_neg (by omega)]
        exact Nat.cast_pred hM1
      | fail => rfl
  · have hv : value < M := by omega
    rw [if_neg (mt hover.mp hhigh)]
    by_cases hlow : value + incr < 0
    · rw [if_pos ((hunder hv).mpr hlow)]
      refine ⟨⟨fun h => ?_, fun h => by omega⟩, fun _ => ?_⟩
      · cases owtype <;> simp at h
      · cases owtype with
        | wrap => exact hwrap
        | sat => exact (if_pos hlow).symm
        | fail => rfl
    · rw [if_neg (mt (hunder hv).mp hlow)]
      exact ⟨⟨fun _ => by omega, fun _ => rfl⟩, fun h => absurd rfl h⟩

lemma wrapSigned_spec (hpos : 0 < bits) (hbits : bits ≤ 64) (value incr : ℤ) :
    wrapSigned value incr bits = (value + incr).bmod (2 ^ bits) := by
  have hmod : ((toU64 (value + incr) : ℕ) : ℤ).bmod (2 ^ bits) =
      (value + incr).bmod (2 ^ bits) := by
    have h := toU64_mod (value + incr) hbits
    push_cast at h
    rw [← emod_bmod, ← emod_bmod (value + incr)]
    push_cast
    rw [h]
  rw [← hmod]
  unfold wrapSigned
  simp only [and_one_shiftLeft_ne_zero]
  rcases lt_or_ge bits 64 with hsmall | hbig
  · rw [if_pos hsmall, ← signExtend_eq hpos hbits (toU64_lt _), and_low_bits hbits]
  · obtain rfl : bits = 64 := by omega
    rw [if_neg (lt_irrefl _)]
    rfl

/-- `checkSignedBitfieldOverflow` compares the sum with the range of the type. The limit of
`BFOVERFLOW_SAT` is on the right side unless the value to be stored is too small. -/
lemma checkSigned_spec {value incr : ℤ} (hpos : 0 < bits) (hbits : bits ≤ 64)
    (hvalue : -2 ^ (bits - 1) ≤ value ∧ value ≤ 2 ^ (bits - 1) - 1 ∨ incr = 0)
    (hvge : -2 ^ 63 ≤ value) (hvlt : value < 2 ^ 63) (hge : -2 ^ 63 ≤ incr) (hlt : incr < 2 ^ 63)
    (owtype : BfOverflow) :
    ((checkSignedBitfieldOverflow value incr bits owtype).1 = 0 ↔
      -2 ^ (bits - 1) ≤ value + incr ∧ value + incr ≤ 2 ^ (bits - 1) - 1) ∧
    ((checkSignedBitfieldOverflow value incr bits owtype).1 ≠ 0 →
      (checkSignedBitfieldOverflow value incr bits owtype).2 = match owtype with
        | .wrap => (value + incr).bmod (2 ^ bits)
        | .sat => if bits ≠ 64 ∧ value < -2 ^ 63 + 2 ^ (bits - 1) then 2 ^ (bits - 1) - 1
            else if value + incr < -2 ^ (bits - 1) then -2 ^ (bits - 1) else 2 ^ (bits - 1) - 1
        | .fail => 0) := by
  have hwrap := wrapSigned_spec hpos hbits value incr
  have hmax : (if bits = 64 then 2 ^ 63 - 1 else 2 ^ (bits - 1) - 1 : ℤ) = 2 ^ (bits - 1) - 1 := by
    split_ifs with h
    · rw [h]
    · rfl
  have hH1 : (1 : ℤ) ≤ 2 ^ (bits - 1) := one_le_pow₀ (by norm_num)
  have hH63 : bits ≠ 64 → (2 : ℤ) ^ (bits - 1) ≤ 2 ^ 62 := fun h =>
    pow_le_pow_right₀ (by norm_num) (by omega)
  unfold checkSignedBitfieldOverflow
  simp only [hmax, hwrap]
  generalize (2 : ℤ) ^ (bits - 1) = H at *
  -- the first comparison also finds the values that are too small for the difference to be exact
  have hover : (value > H - 1 ∨ bits ≠ 64 ∧ incr > toI64 (H - 1 - value) ∨
      value ≥ 0 ∧ incr > 0 ∧ incr > toI64 (H - 1 - value)) ↔
      H - 1 < value + incr ∨ bits ≠ 64 ∧ value < -2 ^ 63 + H := by
    rw [toI64_eq]
    split_ifs <;> omega
  have hunder : value ≤ H - 1 → (bits = 64 ∨ -2 ^ 63 + H ≤ value) →
      ((value < -(H - 1) - 1 ∨ bits ≠ 64 ∧ incr < toI64 (-(H - 1) - 1 - value) ∨
        value < 0 ∧ incr < 0 ∧ incr < toI64 (-(H - 1) - 1 - value)) ↔ value + incr < -H) := by
    intro hle hside
    rw [toI64_eq]
    split_ifs <;> omega
  by_cases hhigh : H - 1 < value + incr ∨ bits ≠ 64 ∧ value < -2 ^ 63 + H
  · have hout : ¬ (-H ≤ value + incr ∧ value + incr ≤ H - 1) := by
      rintro ⟨h1, h2⟩
      rcases hhigh with h | ⟨h64, h⟩
      · omega
      · have := hH63 h64
        omega
    rw [if_pos (hover.mpr hhigh)]
    refine ⟨⟨fun h => ?_, fun h => absurd h hout⟩, fun _ => ?_⟩
    · cases owtype <;> simp at h
    · cases owtype with
      | wrap => rfl
      | sat =>
        split_ifs with h1 h2
        · rfl
        · omega
        · rfl
      | fail => rfl
  · have hle : value ≤ H - 1 := by
      by_contra hc
      exact hhigh (.inl (by omega))
    have hside : bits = 64 ∨ -2 ^ 63 + H ≤ value := by omega
    rw [if_neg (mt hover.mp hhigh)]
    by_cases hlow : value + incr < -H
    · rw [if_pos ((hunder hle hside).mpr hlow)]
      refine ⟨⟨fun h => ?_, fun h => by omega⟩, fun _ => ?_⟩
      · cases owtype <;> simp at h
      · cases owtype with
        | wrap => rfl
        | sat =>
          rw [if_neg (by omega), if_pos hlow]
          ring
        | fail => rfl
    · rw [if_neg (mt (hunder hle hside).mp hlow)]
      exact ⟨⟨fun _ => by omega, fun _ => rfl⟩, fun h => absurd rfl h⟩

/-! ### The operations of the code -/

section Operations

variable {op : BitfieldOp}

lemma BitfieldOp.Valid.bits_le (h : op.Valid) : op.bits ≤ 64 := by
  have := h.le
  split_ifs at this <;> omega

lemma BitfieldOp.Valid.read_mem (h : op.Valid) (σ : ℕ → Bool) :
    op.lo ≤ op.read σ ∧ op.read σ ≤ op.hi := by
  have hlt := fieldNat_lt σ op.offset op.bits
  unfold lo read hi
  cases op.sign with
  | true =>
    simp only [if_true]
    rw [bmod_two_pow hlt h.pos, testBit_highest hlt h.pos]
    have hcast : (2 : ℤ) ^ op.bits = ((2 ^ op.bits : ℕ) : ℤ) := by push_cast; rfl
    have htwo := two_pow_succ_pred h.pos
    split_ifs with hc
    · have := of_decide_eq_true hc
      omega
    · have := of_decide_eq_false (Bool.not_eq_true _ ▸ hc)
      omega
  | false =>
    simp only [Bool.false_eq_true, if_false]
    have hcast : (2 : ℤ) ^ op.bits = ((2 ^ op.bits : ℕ) : ℤ) := by push_cast; rfl
    omega

/-- A number that is written to the field is read back reduced. -/
lemma BitfieldOp.read_writeField (op : BitfieldOp) (σ : ℕ → Bool) (x : ℤ) :
    op.read (writeField σ op.offset op.bits (x % 2 ^ op.bits).toNat) = op.wrapped x := by
  have hnonneg : 0 ≤ x % 2 ^ op.bits := emod_nonneg _ (by positivity)
  have hfield : ((fieldNat (writeField σ op.offset op.bits (x % 2 ^ op.bits).toNat) op.offset
      op.bits : ℕ) : ℤ) = x % 2 ^ op.bits := by
    rw [fieldNat_writeField]
    push_cast
    rw [toNat_of_nonneg hnonneg, emod_emod_of_dvd _ (dvd_refl _)]
  unfold read wrapped
  rw [hfield]
  split_ifs
  · have hmod := @emod_bmod x (2 ^ op.bits)
    exact hmod
  · rfl

variable {x : ℤ}

lemma BitfieldOp.Valid.wrapped_of_fits (h : op.Valid) (hx : op.fits x) :
    op.wrapped x = x := by
  have htwo := two_pow_succ_pred h.pos
  unfold wrapped
  unfold fits lo hi at hx
  split_ifs at hx ⊢
  · refine bmod_eq_of_le_mul_two ?_ ?_ <;> push_cast <;> omega
  · exact emod_eq_of_lt (by omega) (by omega)

lemma BitfieldOp.Valid.stored_fits (h : op.Valid) {v : ℤ} (hv : op.stored x = some v) :
    op.fits v := by
  have hlohi : op.lo ≤ op.hi := (h.read_mem fun _ => false).1.trans (h.read_mem fun _ => false).2
  unfold stored at hv
  by_cases hfits : op.fits x
  · rw [if_pos hfits] at hv
    cases hv
    exact hfits
  · rw [if_neg hfits] at hv
    cases how : op.owtype with
    | wrap =>
      rw [how] at hv
      cases hv
      rw [← op.read_writeField fun _ => false]
      exact h.read_mem _
    | sat =>
      rw [how] at hv
      cases hv
      split_ifs
      · exact ⟨le_rfl, hlohi⟩
      · exact ⟨hlohi, le_rfl⟩
    | fail =>
      rw [how] at hv
      cases hv

lemma BitfieldOp.Valid.storedByCode_fits (h : op.Valid) {v : ℤ} (hv : op.storedByCode x = some v) :
    op.fits v := by
  unfold storedByCode at hv
  split_ifs at hv
  · cases hv
    exact ⟨(h.read_mem fun _ => false).1.trans (h.read_mem fun _ => false).2, le_rfl⟩
  · exact h.stored_fits hv

/-- An operation fails exactly under `OVERFLOW FAIL` with a result that does not fit. -/
lemma BitfieldOp.storedByCode_eq_none_iff (op : BitfieldOp) (x : ℤ) :
    op.storedByCode x = none ↔ op.owtype = .fail ∧ ¬ op.fits x := by
  unfold storedByCode stored
  by_cases hup : op.clampsUp
  · rw [if_pos hup]
    have hsat : op.owtype = .sat := (of_decide_eq_true hup).2.2.1
    simp [hsat]
  · rw [if_neg hup]
    by_cases hfits : op.fits x
    · simp [hfits]
    · cases how : op.owtype <;> simp [hfits]

/-- The limit computed by the overflow checks, put into words for both types. -/
def BitfieldOp.limit (op : BitfieldOp) (x : ℤ) : ℤ :=
  match op.owtype with
  | .wrap => op.wrapped x
  | .sat => if op.clampsUp then op.hi else if x < op.lo then op.lo else op.hi
  | .fail => 0

/-- The new value is chosen by the overflow check as in `storedByCode`. -/
lemma BitfieldOp.storedByCode_of_check {overflow limit : ℤ} (hfits : overflow = 0 ↔ op.fits x)
    (hlimit : overflow ≠ 0 → limit = op.limit x) (hup : op.clampsUp → ¬ op.fits x) :
    op.storedByCode x = if overflow ≠ 0 ∧ op.owtype = .fail then none
      else some (if overflow ≠ 0 then limit else x) := by
  unfold BitfieldOp.storedByCode BitfieldOp.stored
  by_cases hover : overflow = 0
  · have hx := hfits.mp hover
    rw [if_neg fun hc => hup hc hx, if_pos hx, if_neg fun hc => hc.1 hover,
      if_neg (not_not.mpr hover)]
  · have hx := mt hfits.mpr hover
    simp only [if_neg hx, hlimit hover, ne_eq, hover]
    unfold BitfieldOp.limit
    cases how : op.owtype with
    | wrap =>
      have hno : op.clampsUp = false := by simp [BitfieldOp.clampsUp, how]
      simp [hno]
    | sat => by_cases hc : op.clampsUp <;> simp [hc]
    | fail =>
      have hno : op.clampsUp = false := by simp [BitfieldOp.clampsUp, how]
      simp [hno]

lemma BitfieldOp.Valid.writeField_toU64 (h : op.Valid) (σ : ℕ → Bool) (v : ℤ) :
    writeField σ op.offset op.bits (toU64 v) =
      writeField σ op.offset op.bits (v % 2 ^ op.bits).toNat := by
  have hmod := toU64_mod v h.bits_le
  have hnat : (v % 2 ^ op.bits).toNat = toU64 v % 2 ^ op.bits := by
    rw [← hmod, toNat_natCast]
  rw [hnat, writeField_mod]

/-- The field of a sequence is the integer that is read from it, reduced. -/
lemma BitfieldOp.read_emod (op : BitfieldOp) (σ : ℕ → Bool) :
    (op.read σ % 2 ^ op.bits).toNat = fieldNat σ op.offset op.bits := by
  have hlt := fieldNat_lt σ op.offset op.bits
  have hcast : ((2 : ℤ) ^ op.bits) = ((2 ^ op.bits : ℕ) : ℤ) := by push_cast; rfl
  unfold read
  rw [hcast]
  have hmod : (fieldNat σ op.offset op.bits : ℤ) % (2 ^ op.bits : ℕ) =
      fieldNat σ op.offset op.bits :=
    emod_eq_of_lt (natCast_nonneg _) (by exact_mod_cast hlt)
  split_ifs
  · rw [bmod_emod, hmod, toNat_natCast]
  · rw [hmod, toNat_natCast]

/-- Writing an integer of the type leaves the sequence as it is only if it was there before. -/
lemma BitfieldOp.Valid.writeField_eq_self_iff (h : op.Valid) {σ : ℕ → Bool} {v : ℤ}
    (hv : op.fits v) :
    writeField σ op.offset op.bits (v % 2 ^ op.bits).toNat = σ ↔ op.read σ = v := by
  constructor
  · intro heq
    rw [← h.wrapped_of_fits hv, ← op.read_writeField σ v, heq]
  · intro heq
    rw [RainCall.writeField_eq_self_iff, ← heq, op.read_emod]
    exact mod_eq_of_lt (fieldNat_lt ..)

/-- What SET and INCRBY do to a string, compared with the operation on the sequence. -/
structure BitfieldWrite.Spec (w : BitfieldWrite) (op : BitfieldOp) (p : Bytes)
    (grown : Bool) : Prop where
  length : w.string.length = p.length
  exec : (w.reply, bitSeq w.string) = op.exec BitfieldOp.storedByCode (bitSeq p)
  unchanged : w.reply = none → w.string = p
  changed : w.changed ↔ w.reply ≠ none ∧ (grown ∨ bitSeq w.string ≠ bitSeq p)

section

variable (h : op.Valid)
include h

/-- The last part of SET and INCRBY: the value `newval` is written to the field if the operation
does not fail. -/
lemma bitfieldWrite_store (hop : op.opcode ≠ .get) (hroom : op.offset + op.bits ≤ 8 * p.length)
    {grown changed : Bool} {fails : Prop} [Decidable fails] {newval reply : ℤ} {u : ℕ}
    (hst : op.storedByCode (op.result (bitSeq p)) = if fails then none else some newval)
    (hu : writeField (bitSeq p) op.offset op.bits u = writeField (bitSeq p) op.offset op.bits
      (newval % 2 ^ op.bits).toNat)
    (hreply : ¬ fails → reply = if op.opcode = .incrby then newval else op.read (bitSeq p))
    (hchanged : changed ↔ grown ∨ op.read (bitSeq p) ≠ newval) :
    ∃ w : BitfieldWrite, (if fails then some ⟨none, p, false⟩
      else (setUnsignedBitfield p op.offset op.bits u).bind fun p' =>
        some ⟨some reply, p', changed⟩) = some w ∧ w.Spec op p grown := by
  by_cases hfails : fails
  · rw [if_pos hfails] at hst ⊢
    refine ⟨_, rfl, rfl, ?_, fun _ => rfl, ?_⟩
    · rw [exec, if_neg hop, hst]
    · simp
  · rw [if_neg hfails] at hst ⊢
    obtain ⟨p', hp', hlen, hbits⟩ := setUnsignedBitfield_spec hroom u
    rw [hp']
    refine ⟨_, rfl, hlen, ?_, fun hnone => absurd hnone (by simp), ?_⟩
    · rw [exec, if_neg hop, hst, hbits, hu, hreply hfails]
    · have hself := h.writeField_eq_self_iff (σ := bitSeq p) (h.storedByCode_fits hst)
      simp only [hbits, hu, ne_eq, hself, hchanged]
      simp

lemma bitfieldCheckSigned_spec (hsign : op.sign = true) (hop : op.opcode ≠ .get) (σ : ℕ → Bool)
    {check : ℤ × ℤ}
    (hcheck : check = if op.opcode = .incrby then checkSignedBitfieldOverflow (op.read σ) op.i64
      op.bits op.owtype else checkSignedBitfieldOverflow op.i64 0 op.bits op.owtype) :
    op.storedByCode (op.result σ) = if check.1 ≠ 0 ∧ op.owtype = .fail then none
      else some (if check.1 ≠ 0 then check.2
        else if op.opcode = .incrby then op.read σ + op.i64 else op.i64) := by
  have hread := h.read_mem σ
  have hbits := h.bits_le
  have hlo : op.lo = -2 ^ (op.bits - 1) := by rw [lo, if_pos hsign]
  have hhi : op.hi = 2 ^ (op.bits - 1) - 1 := by rw [hi, if_pos hsign]
  have hH : (2 : ℤ) ^ (op.bits - 1) ≤ 2 ^ 63 := pow_le_pow_right₀ (by norm_num) (by omega)
  have hH62 : op.bits ≠ 64 → (2 : ℤ) ^ (op.bits - 1) ≤ 2 ^ 62 := fun h =>
    pow_le_pow_right₀ (by norm_num) (by omega)
  have hge := h.ge_i64
  have hlt := h.lt_i64
  rw [hlo, hhi] at hread
  by_cases hincr : op.opcode = .incrby
  · rw [if_pos hincr] at hcheck
    have hspec := checkSigned_spec h.pos hbits (.inl hread) (by omega) (by omega) hge hlt op.owtype
    rw [← hcheck] at hspec
    have hresult : op.result σ = op.read σ + op.i64 := by rw [result, if_pos hincr]
    have hno : op.clampsUp = false := by simp [clampsUp, hincr]
    rw [if_pos hincr, hresult]
    refine storedByCode_of_check ?_ (fun hover => ?_) fun hc => absurd hc (by simp [hno])
    · rw [hspec.1, fits, hlo, hhi]
    · rw [hspec.2 hover, limit, wrapped, if_pos hsign, hno, hlo, hhi]
      cases op.owtype with
      | wrap => rfl
      | sat =>
        have hin : ¬ (op.bits ≠ 64 ∧ op.read σ < -2 ^ 63 + 2 ^ (op.bits - 1)) := by
          rintro ⟨h64, hsmall⟩
          omega
        simp only [if_neg hin, Bool.false_eq_true, if_false]
      | fail => rfl
  · rw [if_neg hincr] at hcheck
    have hset : op.opcode = .set := by
      cases hcode : op.opcode with
      | get => exact absurd hcode hop
      | set => rfl
      | incrby => exact absurd hcode hincr
    have hspec := checkSigned_spec h.pos hbits (.inr rfl) hge hlt (by norm_num) (by norm_num)
      op.owtype
    rw [← hcheck, add_zero] at hspec
    have hresult : op.result σ = op.i64 := by
      rw [result, if_neg hincr, if_pos hsign]
    rw [if_neg hincr, hresult]
    refine storedByCode_of_check ?_ (fun hover => ?_) fun hc => ?_
    · rw [hspec.1, fits, hlo, hhi]
    · rw [hspec.2 hover, limit, wrapped, if_pos hsign, hlo, hhi]
      cases how : op.owtype with
      | wrap => rfl
      | sat => simp [clampsUp, hset, hsign, how]
      | fail => rfl
    · have hup := of_decide_eq_true hc
      rw [fits]
      omega

/-- SET and INCRBY of a signed field. -/
lemma bitfieldWriteSigned_spec (hsign : op.sign = true) (hop : op.opcode ≠ .get)
    (hroom : op.offset + op.bits ≤ 8 * p.length) (grown : Bool) :
    ∃ w, bitfieldWriteSigned p op grown = some w ∧ w.Spec op p grown := by
  have hread : getSignedBitfield p op.offset op.bits = some (op.read (bitSeq p)) := by
    rw [getSignedBitfield_spec hroom h.pos h.bits_le, BitfieldOp.read, if_pos hsign]
  unfold bitfieldWriteSigned
  simp only [hread]
  exact bitfieldWrite_store h hop hroom (bitfieldCheckSigned_spec h hsign hop (bitSeq p) rfl)
    (h.writeField_toU64 ..) (fun _ => rfl) (by simp)

lemma bitfieldCheckUnsigned_spec (hsign : op.sign = false) (σ : ℕ → Bool) {check : ℤ × ℕ}
    {newval : ℕ}
    (hcheck : check = if op.opcode = .incrby then checkUnsignedBitfieldOverflow (fieldNat σ
      op.offset op.bits) op.i64 op.bits op.owtype else checkUnsignedBitfieldOverflow (toU64
      op.i64) 0 op.bits op.owtype)
    (hnewval : newval = if check.1 ≠ 0 then check.2 else if op.opcode = .incrby then toU64
      (fieldNat σ op.offset op.bits + op.i64) else toU64 op.i64) :
    op.storedByCode (op.result σ) =
      if check.1 ≠ 0 ∧ op.owtype = .fail then none else some (newval : ℤ) := by
  have hread : op.read σ = fieldNat σ op.offset op.bits := by
    rw [BitfieldOp.read, if_neg (by simp [hsign])]
  have hbits : op.bits ≤ 63 := by simpa [hsign] using h.le
  have hlo : op.lo = 0 := by rw [BitfieldOp.lo, if_neg (by simp [hsign])]
  have hhi : op.hi = 2 ^ op.bits - 1 := by rw [BitfieldOp.hi, if_neg (by simp [hsign])]
  have hM : (2 : ℤ) ^ op.bits ≤ 2 ^ 63 := pow_le_pow_right₀ (by norm_num) hbits
  have hno : op.clampsUp = false := by simp [BitfieldOp.clampsUp, hsign]
  have hcast : ∀ x : ℤ, op.fits x → ((toU64 x : ℕ) : ℤ) = x := by
    intro x hx
    rw [BitfieldOp.fits, hlo] at hx
    unfold toU64
    rw [emod_eq_of_lt hx.1 (by omega), toNat_of_nonneg hx.1]
  have hwrapped : ∀ x : ℤ, op.wrapped x = x % 2 ^ op.bits := by simp [BitfieldOp.wrapped, hsign]
  -- both calls check a sum, which is the result of the operation
  have hsum : ∀ (value : ℕ) (incr : ℤ), value < 2 ^ op.bits ∨ incr = 0 → -2 ^ 63 ≤ incr →
      incr < 2 ^ 63 → check = checkUnsignedBitfieldOverflow value incr op.bits op.owtype →
      newval = (if check.1 ≠ 0 then check.2 else toU64 (value + incr)) →
      op.storedByCode (value + incr) =
        if check.1 ≠ 0 ∧ op.owtype = .fail then none else some (newval : ℤ) := by
    intro value incr hvalue hge hlt heq hnew
    have hspec := checkUnsigned_spec h.pos hbits hvalue hge hlt op.owtype
    rw [← heq] at hspec
    have hfits : check.1 = 0 ↔ op.fits (value + incr) := by
      rw [hspec.1, BitfieldOp.fits, hlo, hhi]
    have hlimit : check.1 ≠ 0 → (check.2 : ℤ) = op.limit (value + incr) := by
      intro hover
      rw [hspec.2 hover, BitfieldOp.limit, hwrapped, hno, hlo, hhi]
      cases op.owtype <;> rfl
    rw [BitfieldOp.storedByCode_of_check hfits hlimit fun hc => absurd hc (by simp [hno]), hnew]
    by_cases hover : check.1 = 0
    · rw [if_neg (not_not.mpr hover), if_neg (not_not.mpr hover), hcast _ (hfits.mp hover)]
    · rw [if_pos hover, if_pos hover]
  by_cases hincr : op.opcode = .incrby
  · rw [if_pos hincr] at hcheck hnewval
    rw [BitfieldOp.result, if_pos hincr, hread]
    exact hsum _ _ (.inl (fieldNat_lt ..)) h.ge_i64 h.lt_i64 hcheck hnewval
  · rw [if_neg hincr] at hcheck hnewval
    have hresult : op.result σ = (toU64 op.i64 : ℕ) + 0 := by
      have hnonneg : 0 ≤ op.i64 % 2 ^ 64 := emod_nonneg _ (by norm_num)
      rw [BitfieldOp.result, if_neg hincr, if_neg (by simp [hsign]), toU64,
        toNat_of_nonneg hnonneg, add_zero]
    have htwice : toU64 ((toU64 op.i64 : ℕ) + 0) = toU64 op.i64 := by
      have hlt := toU64_lt op.i64
      nth_rewrite 1 [toU64]
      omega
    rw [hresult]
    refine hsum _ _ (.inr rfl) (by norm_num) (by norm_num) hcheck ?_
    rw [htwice, hnewval]

/-- The last part of SET and INCRBY for an unsigned field, where the values are `uint64_t`. -/
lemma bitfieldWrite_storeUnsigned (hsign : op.sign = false) (hop : op.opcode ≠ .get)
    (hroom : op.offset + op.bits ≤ 8 * p.length) (grown : Bool) {fails : Prop} [Decidable fails]
    {newval : ℕ}
    (hst : op.storedByCode (op.result (bitSeq p)) = if fails then none else some (newval : ℤ)) :
    ∃ w : BitfieldWrite, (if fails then some ⟨none, p, false⟩
      else (setUnsignedBitfield p op.offset op.bits newval).bind fun p' =>
        some ⟨some (toI64 (if op.opcode = .incrby then newval
          else fieldNat (bitSeq p) op.offset op.bits : ℕ)), p',
          decide (grown ∨ fieldNat (bitSeq p) op.offset op.bits ≠ newval)⟩) = some w ∧
      w.Spec op p grown := by
  have hread : op.read (bitSeq p) = fieldNat (bitSeq p) op.offset op.bits := by
    rw [BitfieldOp.read, if_neg (by simp [hsign])]
  have hbits : op.bits ≤ 63 := by simpa [hsign] using h.le
  have hM : (2 : ℤ) ^ op.bits ≤ 2 ^ 63 := pow_le_pow_right₀ (by norm_num) hbits
  have hcast : ∀ n : ℕ, op.fits n → toI64 n = n := by
    intro n hn
    rw [BitfieldOp.fits, BitfieldOp.hi, if_neg (by simp [hsign])] at hn
    exact toI64_of_mem (by omega) (by omega)
  refine bitfieldWrite_store h hop hroom hst ?_ (fun hfails => ?_) ?_
  · rw [← writeField_mod _ _ _ newval]
    congr 1
  · rw [if_neg hfails] at hst
    split_ifs
    · exact hcast _ (h.storedByCode_fits hst)
    · rw [hread]
      exact hcast _ (hread ▸ h.read_mem (bitSeq p))
  · rw [hread]
    simp

lemma bitfieldWriteUnsigned_spec (hsign : op.sign = false) (hop : op.opcode ≠ .get)
    (hroom : op.offset + op.bits ≤ 8 * p.length) (grown : Bool) :
    ∃ w, bitfieldWriteUnsigned p op grown = some w ∧ w.Spec op p grown := by
  unfold bitfieldWriteUnsigned
  simp only [getUnsignedBitfield_spec hroom h.bits_le]
  exact bitfieldWrite_storeUnsigned h hsign hop hroom grown
    (bitfieldCheckUnsigned_spec h hsign (bitSeq p) rfl rfl)

/-- SET and INCRBY. -/
lemma bitfieldWrite_spec (hop : op.opcode ≠ .get) (hroom : op.offset + op.bits ≤ 8 * p.length)
    (grown : Bool) :
    ∃ w, bitfieldWrite p op grown = some w ∧ w.Spec op p grown := by
  unfold bitfieldWrite
  by_cases hsign : op.sign = true
  · rw [if_pos hsign]
    exact bitfieldWriteSigned_spec h hsign hop hroom grown
  · rw [if_neg hsign]
    exact bitfieldWriteUnsigned_spec h (by simpa using hsign) hop hroom grown

end

/-- The window of GET holds the bits of the string from the byte of the offset on. -/
lemma bitSeq_window (src : Bytes) (byte : ℕ) {i : ℕ} (hi : i < 72) :
    bitSeq ((range 9).map fun i => (src[i + byte]?).getD 0) i = bitSeq src (8 * byte + i) := by
  have hdiv : (8 * byte + i) / 8 = i / 8 + byte := by omega
  have hmod : (8 * byte + i) % 8 = i % 8 := by omega
  have hlt : i / 8 < 9 := by omega
  unfold bitSeq
  rw [hdiv]
  simp [hlt]

/-- GET reads the field, also where it lies outside of the string. -/
lemma bitfieldGet_spec (h : op.Valid) (s : Option Bytes) :
    bitfieldGet s op = some (op.read (keyBits s)) := by
  have hbits := h.bits_le
  have hwindow : ∀ i, op.offset - op.offset / 8 * 8 ≤ i →
      i < op.offset - op.offset / 8 * 8 + op.bits →
      bitSeq ((range 9).map fun i => ((s.getD [])[i + op.offset / 8]?).getD 0) i =
        keyBits s (8 * (op.offset / 8) + i) :=
    fun i _ hi => bitSeq_window _ _ (by omega)
  have hfield : fieldNat (bitSeq ((range 9).map fun i =>
      ((s.getD [])[i + op.offset / 8]?).getD 0)) (op.offset - op.offset / 8 * 8) op.bits =
      fieldNat (keyBits s) op.offset op.bits := by
    rw [fieldNat_eq_iff.mpr hwindow, fieldNat_shift]
    congr 1
    omega
  have hroom : op.offset - op.offset / 8 * 8 + op.bits ≤ 8 * ((range 9).map fun i =>
      ((s.getD [])[i + op.offset / 8]?).getD 0).length := by
    rw [length_map, length_range]
    omega
  unfold bitfieldGet
  simp only [shiftRight_three]
  rw [getSignedBitfield_spec hroom h.pos hbits, getUnsignedBitfield_spec hroom hbits, hfield]
  unfold BitfieldOp.read
  split_ifs with hsign
  · rfl
  · have hlt := fieldNat_lt (keyBits s) op.offset op.bits
    have hle : op.bits ≤ 63 := by simpa [hsign] using h.le
    have hM : 2 ^ op.bits ≤ 2 ^ 63 := two_pow_le_two_pow hle
    rw [map_some, toI64_of_mem (by omega) (by omega)]

end Operations

end RainCall
