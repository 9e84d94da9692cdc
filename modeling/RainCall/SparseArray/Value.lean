import RainCall.Foundation.Bytes
import RainCall.Util.DoubleText

/-!
# Array values

`sparsearray.h`, `sparsearray.c`: an element of an array is a tagged 64-bit word. The two low bits
tell an immediate integer, an immediate float (a double without its two low bits) and a string of
at most seven bytes from a pointer to a string on the heap.
-/

namespace RainCall

/-- A non-`NULL` tagged value: an immediate word, or a pointer to the bytes of a heap string. -/
inductive ArValue
  | imm (w : BitVec 64)
  | ptr (bytes : Bytes)
  deriving DecidableEq, Repr

def arTagMask : BitVec 64 := 3#64

def arSmallStrMaxLen : ℕ := 7

def arInlineBufSize : ℕ := 64

/-! ## Heap strings -/

def arStringHeaderSize (len : ℕ) : ℕ := if len ≤ 32767 then 2 else 8

/-- `arStringNew`: a header with the length, and the content. Lengths from `2 ^ 63` on fail the
assertion. -/
def arStringNew (s : Bytes) : Option Bytes :=
  if s.length < 2 ^ 63 then
    if arStringHeaderSize s.length = 2 then
      some (UInt8.ofNat (0x80 ||| (s.length >>> 8 &&& 0x7F)) ::
        UInt8.ofNat (s.length &&& 0xFF) :: s)
    else some (beBytes 8 s.length ++ s)
  else none

/-- Whether the header of a heap string is the short one. -/
def arStringShort (p : Bytes) : Bool := p.headD 0 &&& 0x80 ≠ 0

def arStringLen (p : Bytes) : ℕ :=
  if arStringShort p then (p.headD 0 &&& 0x7F).toNat <<< 8 ||| (p.getD 1 0).toNat
  else ofBeBytes (p.take 8)

/-- `arStringData`: the bytes after the header. -/
def arStringData (p : Bytes) : Bytes := p.drop (if arStringShort p then 2 else 8)

/-! ## Immediate values -/

def arIntFits (ival : ℤ) : Prop := -(2 ^ 61) ≤ ival ∧ ival ≤ 2 ^ 61 - 1

instance (ival : ℤ) : Decidable (arIntFits ival) := inferInstanceAs (Decidable (_ ∧ _))

def arFromInt (ival : ℤ) : BitVec 64 := BitVec.ofInt 64 ival <<< 2 ||| 1#64

/-- `arToInt`: the arithmetic shift preserves the sign. -/
def arToInt (w : BitVec 64) : ℤ := (w.sshiftRight 2).toInt

def arFromFloatBits (bits : BitVec 64) : BitVec 64 := (bits &&& ~~~arTagMask) ||| 2#64

def arToDouble (w : BitVec 64) : BitVec 64 := w &&& ~~~arTagMask

/-- The loop of `arFromSmallStr`, from byte `i` on. -/
def arFromSmallStrLoop : ℕ → BitVec 64 → Bytes → BitVec 64
  | _, v, [] => v
  | i, v, c :: cs =>
    arFromSmallStrLoop (i + 1) (v ||| c.toBitVec.setWidth 64 <<< (8 * (i + 1))) cs

def arFromSmallStr (s : Bytes) : BitVec 64 :=
  arFromSmallStrLoop 0 (3#64 ||| BitVec.ofNat 64 s.length <<< 2) s

def arSmallStrLen (w : BitVec 64) : ℕ := (w >>> 2 &&& 7#64).toNat

def arToSmallStr (w : BitVec 64) : Bytes :=
  (List.range (arSmallStrLen w)).map fun i => ⟨(w >>> (8 * (i + 1))).setWidth 8⟩

/-! ## Tagged words -/

def arTryEncodeInt (s : Bytes) : Option ArValue :=
  match string2ll s with
  | some ll => if arIntFits ll then some (.imm (arFromInt ll)) else none
  | none => none

/-- The filter of `arTryEncodeFloat` after an optional sign: digits and exactly one dot. -/
def arFloatFilter : Bool → Bytes → Bool
  | dotSeen, [] => dotSeen
  | dotSeen, c :: cs =>
    if c = 46 then if dotSeen then false else arFloatFilter true cs
    else if c < 48 ∨ c > 57 then false
    else arFloatFilter dotSeen cs

def arTryEncodeFloat (ft : FloatText) (s : Bytes) : Option ArValue :=
  if s.length = 0 then none
  else if s.head? = some 45 ∧ s.length = 1 then none
  else if ¬ arFloatFilter false (if s.head? = some 45 then s.tail else s) then none
  else
    match ft.string2d s with
    | none => none
    | some d =>
      if doubleIsNan d ∨ doubleIsInf d then none
      else
        let bitsTrunc := d &&& ~~~arTagMask
        let buf := d2string ft (arInlineBufSize - 2) bitsTrunc
        if buf = s then some (.imm (arFromFloatBits bitsTrunc))
        else if buf ++ [46, 48] = s then some (.imm (arFromFloatBits bitsTrunc))
        else none

def arEncode (ft : FloatText) (s : Bytes) : Option ArValue :=
  match arTryEncodeInt s with
  | some v => some v
  | none =>
    match arTryEncodeFloat ft s with
    | some v => some v
    | none =>
      if s.length ≤ arSmallStrMaxLen then some (.imm (arFromSmallStr s))
      else (arStringNew s).map .ptr

/-- `arFormatFloat`: an integer-looking finite double gets `.0` appended. -/
def arFormatFloat (ft : FloatText) (d : BitVec 64) (bufsize : ℕ) : Option Bytes :=
  if bufsize ≥ arInlineBufSize then
    let buf := d2string ft (bufsize - 2) d
    if doubleIsFinite d ∧ 46 ∉ buf ∧ 101 ∉ buf ∧ 69 ∉ buf then
      if buf.length + 2 < bufsize then some (buf ++ [46, 48]) else none
    else some buf
  else none

/-- `arDecode`, with a buffer of `AR_INLINE_BUFSIZE` bytes. A word with tag `00` is a pointer, so
it is no immediate value. -/
def arDecode (ft : FloatText) : ArValue → Option Bytes
  | .imm w =>
    if w &&& arTagMask = 1#64 then some (ll2string 32 (arToInt w))
    else if w &&& arTagMask = 2#64 then arFormatFloat ft (arToDouble w) arInlineBufSize
    else if w &&& arTagMask = 3#64 then some (arToSmallStr w)
    else none
  | .ptr p => some ((arStringData p).take (arStringLen p))

/-! ## Values from RDB files, on 64-bit builds -/

end RainCall
