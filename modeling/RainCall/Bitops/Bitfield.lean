import RainCall.Foundation.Bytes
import RainCall.Foundation.BitField
import RainCall.Foundation.MachineInt

/-!
# BITFIELD and SETBIT

Strings as arrays of fixed-width integers. The offsets count the bits of the string from its first
byte on, the most significant bit of a byte first, and a field is read and written bit by bit.

Machine integers are numbers with explicit conversions: `toU64` and `toI64` are the casts to
`uint64_t` and `int64_t`. An access outside of a string is the result `none`.
-/

namespace RainCall

/-- `setUnsignedBitfield`; the recursion is on the number of bits that are left. -/
def setUnsignedBitfield (p : Bytes) (offset : ℕ) : ℕ → ℕ → Option Bytes
  | 0, _ => some p
  | bits + 1, value => do
    let bitval : UInt8 := if value &&& (1 <<< bits) ≠ 0 then 1 else 0
    let byte := offset >>> 3
    let bit := UInt8.ofNat (7 - (offset &&& 7))
    let byteval ← p[byte]?
    setUnsignedBitfield
      (p.set byte ((byteval &&& ~~~(1 <<< bit)) ||| (bitval <<< bit))) (offset + 1)
      bits value

/-- The loop of `getUnsignedBitfield`, with the value that has been read so far. -/
def getUnsignedBitfieldLoop (p : Bytes) (offset : ℕ) : ℕ → ℕ → Option ℕ
  | 0, value => some value
  | bits + 1, value => do
    let byteval ← p[offset >>> 3]?
    let bitval := (byteval.toNat >>> (7 - (offset &&& 7))) &&& 1
    getUnsignedBitfieldLoop p (offset + 1) bits (((value <<< 1) ||| bitval) % 2 ^ 64)

def getUnsignedBitfield (p : Bytes) (offset bits : ℕ) : Option ℕ :=
  getUnsignedBitfieldLoop p offset bits 0

def getSignedBitfield (p : Bytes) (offset bits : ℕ) : Option ℤ := do
  let value ← getUnsignedBitfield p offset bits
  if bits < 64 ∧ value &&& (1 <<< (bits - 1)) ≠ 0 then
    some (toI64 (value ||| ((2 ^ 64 - 1) <<< bits % 2 ^ 64) : ℕ))
  else some (toI64 value)

/-- `BFOVERFLOW_WRAP`, `BFOVERFLOW_SAT` and `BFOVERFLOW_FAIL` -/
inductive BfOverflow
  | wrap | sat | fail
deriving DecidableEq, Repr

/-- `checkUnsignedBitfieldOverflow`: the kind of overflow, and what `limit` is set to. -/
def checkUnsignedBitfieldOverflow (value : ℕ) (incr : ℤ) (bits : ℕ) (owtype : BfOverflow) : ℤ × ℕ :=
  let max : ℕ := if bits = 64 then 2 ^ 64 - 1 else 2 ^ bits - 1
  let maxincr := toI64 (max - value)
  let minincr := toI64 (-value)
  let wrapped := toU64 (value + incr) &&& (2 ^ 64 - 1 - (2 ^ 64 - 1) <<< bits % 2 ^ 64)
  if value > max ∨ incr > 0 ∧ incr > maxincr then
    match owtype with
    | .wrap => (1, wrapped)
    | .sat => (1, max)
    | .fail => (1, 0)
  else if incr < 0 ∧ incr < minincr then
    match owtype with
    | .wrap => (1, wrapped)
    | .sat => (-1, 0)
    | .fail => (-1, 0)
  else (0, 0)

/-- The label `handle_wrap` of `checkSignedBitfieldOverflow`. -/
def wrapSigned (value incr : ℤ) (bits : ℕ) : ℤ :=
  let c := toU64 (value + incr)
  if bits < 64 then
    let mask := (2 ^ 64 - 1) <<< bits % 2 ^ 64
    if c &&& (1 <<< (bits - 1)) ≠ 0 then toI64 (c ||| mask : ℕ)
    else toI64 (c &&& (2 ^ 64 - 1 - mask) : ℕ)
  else toI64 c

def checkSignedBitfieldOverflow (value incr : ℤ) (bits : ℕ) (owtype : BfOverflow) : ℤ × ℤ :=
  let max : ℤ := if bits = 64 then 2 ^ 63 - 1 else 2 ^ (bits - 1) - 1
  let min := -max - 1
  let maxincr := toI64 (max - value)
  let minincr := toI64 (min - value)
  if value > max ∨ bits ≠ 64 ∧ incr > maxincr ∨ value ≥ 0 ∧ incr > 0 ∧ incr > maxincr then
    match owtype with
    | .wrap => (1, wrapSigned value incr bits)
    | .sat => (1, max)
    | .fail => (1, 0)
  else if value < min ∨ bits ≠ 64 ∧ incr < minincr ∨ value < 0 ∧ incr < 0 ∧ incr < minincr then
    match owtype with
    | .wrap => (1, wrapSigned value incr bits)
    | .sat => (-1, min)
    | .fail => (-1, 0)
  else (0, 0)

/-- `BITFIELDOP_GET`, `BITFIELDOP_SET` and `BITFIELDOP_INCRBY` -/
inductive BitfieldOpcode
  | get | set | incrby
deriving DecidableEq, Repr

/-- `struct bitfieldOp` -/
structure BitfieldOp where
  offset : ℕ
  i64 : ℤ
  opcode : BitfieldOpcode
  owtype : BfOverflow
  bits : ℕ
  sign : Bool
deriving DecidableEq, Repr

/-- What SET and INCRBY do to a string: the reply, which is null if the operation fails, the string,
and whether the operation counts as a change. -/
structure BitfieldWrite where
  reply : Option ℤ
  string : Bytes
  changed : Bool
deriving DecidableEq, Repr

/-- SET and INCRBY of a signed field; `grown` says whether the string had to grow. -/
def bitfieldWriteSigned (p : Bytes) (op : BitfieldOp) (grown : Bool) :
    Option BitfieldWrite := do
  let oldval ← getSignedBitfield p op.offset op.bits
  let check := if op.opcode = .incrby
    then checkSignedBitfieldOverflow oldval op.i64 op.bits op.owtype
    else checkSignedBitfieldOverflow op.i64 0 op.bits op.owtype
  let newval := if check.1 ≠ 0 then check.2
    else if op.opcode = .incrby then oldval + op.i64 else op.i64
  let retval := if op.opcode = .incrby then newval else oldval
  if check.1 ≠ 0 ∧ op.owtype = .fail then some ⟨none, p, false⟩
  else do
    let p' ← setUnsignedBitfield p op.offset op.bits (toU64 newval)
    some ⟨some retval, p', grown ∨ oldval ≠ newval⟩

/-- SET and INCRBY of an unsigned field. -/
def bitfieldWriteUnsigned (p : Bytes) (op : BitfieldOp) (grown : Bool) :
    Option BitfieldWrite := do
  let oldval ← getUnsignedBitfield p op.offset op.bits
  let check := if op.opcode = .incrby
    then checkUnsignedBitfieldOverflow oldval op.i64 op.bits op.owtype
    else checkUnsignedBitfieldOverflow (toU64 op.i64) 0 op.bits op.owtype
  let newval := if check.1 ≠ 0 then check.2
    else if op.opcode = .incrby then toU64 (oldval + op.i64) else toU64 op.i64
  let retval := if op.opcode = .incrby then newval else oldval
  if check.1 ≠ 0 ∧ op.owtype = .fail then some ⟨none, p, false⟩
  else do
    let p' ← setUnsignedBitfield p op.offset op.bits newval
    some ⟨some (toI64 retval), p', grown ∨ oldval ≠ newval⟩

/-- SET and INCRBY. -/
def bitfieldWrite (p : Bytes) (op : BitfieldOp) (grown : Bool) : Option BitfieldWrite :=
  if op.sign then bitfieldWriteSigned p op grown else bitfieldWriteUnsigned p op grown

/-- GET works on a copy of nine bytes, which is padded with zeros at the end of the string. -/
def bitfieldGet (p : Option Bytes) (op : BitfieldOp) : Option ℤ :=
  let byte := op.offset >>> 3
  let src := p.getD []
  let buf := (List.range 9).map fun i => (src[i + byte]?).getD 0
  if op.sign then getSignedBitfield buf (op.offset - byte * 8) op.bits
  else (getUnsignedBitfield buf (op.offset - byte * 8) op.bits).map fun v : ℕ => toI64 v

/-- The arguments of BITFIELD: operations, and the overflow type for the operations after it. -/
inductive BitfieldArg
  | overflow (owtype : BfOverflow)
  | op (opcode : BitfieldOpcode) (sign : Bool) (bits offset : ℕ) (i64 : ℤ)
deriving DecidableEq, Repr

/-- The first loop of `bitfieldGeneric`, from an overflow type on. -/
def bitfieldOps : BfOverflow → List BitfieldArg → List BitfieldOp
  | _, [] => []
  | _, .overflow owtype :: args => bitfieldOps owtype args
  | owtype, .op opcode sign bits offset i64 :: args =>
    ⟨offset, i64, opcode, owtype, bits, sign⟩ :: bitfieldOps owtype args

/-- `highest_write_offset`, or `none` if there are no writes (`readonly`). -/
def highestWriteOffset (ops : List BitfieldOp) : Option ℕ :=
  ops.foldl (fun h op =>
    if op.opcode = .get then h else some (max (h.getD 0) (op.offset + op.bits - 1))) none

/-- `lookupStringForBitCommand`: the string, zero-extended such that `maxbit` can be addressed, and
by how many bytes it grew. -/
def lookupStringForBitCommand (s : Option Bytes) (maxbit : ℕ) : Bytes × ℕ :=
  let byte := maxbit >>> 3
  match s with
  | none => (List.replicate (byte + 1) 0, byte + 1)
  | some p => (p ++ List.replicate (byte + 1 - p.length) 0, byte + 1 - p.length)

/-- The reply of a command, the string at the key, what is added to `server.dirty`, and whether the
key was signalled as modified. -/
structure BitCommandResult where
  replies : List (Option ℤ)
  string : Option Bytes
  dirty : ℕ
  signalled : Bool
deriving DecidableEq, Repr

/-- The operations of BITFIELD, from the first one on. -/
def bitfieldExec (grown : Bool) : Option Bytes → List BitfieldOp →
    Option (List (Option ℤ) × Option Bytes × ℕ)
  | s, [] => some ([], s, 0)
  | s, op :: ops =>
    if op.opcode = .get then do
      let val ← bitfieldGet s op
      let (replies, s', changes) ← bitfieldExec grown s ops
      some (some val :: replies, s', changes)
    else do
      let p ← s
      let w ← bitfieldWrite p op grown
      let (replies, s', changes) ← bitfieldExec grown (some w.string) ops
      some (w.reply :: replies, s', changes + if w.changed then 1 else 0)

/-- `bitfieldGeneric` for BITFIELD, on the string at the key. -/
def bitfieldGeneric (s : Option Bytes) (args : List BitfieldArg) :
    Option BitCommandResult := do
  let ops := bitfieldOps .wrap args
  let start := (highestWriteOffset ops).elim (s, 0) fun maxbit =>
    ((some (lookupStringForBitCommand s maxbit).1), (lookupStringForBitCommand s maxbit).2)
  let (replies, s', changes) ← bitfieldExec (start.2 ≠ 0) start.1 ops
  some ⟨replies, s', changes, changes ≠ 0⟩

/-- `setbitCommand` with a valid offset and bit. -/
def setbitCommand (s : Option Bytes) (bitoffset : ℕ) (on : Bool) :
    Option BitCommandResult := do
  let (p, grow) := lookupStringForBitCommand s bitoffset
  let byte := bitoffset >>> 3
  let bit := UInt8.ofNat (7 - (bitoffset &&& 7))
  let byteval ← p[byte]?
  let bitval := byteval &&& (1 <<< bit) ≠ 0
  let onval : UInt8 := if on then 1 else 0
  let reply : Option ℤ := some (if bitval then 1 else 0)
  if grow ≠ 0 ∨ decide bitval ≠ on then
    some ⟨[reply], some (p.set byte ((byteval &&& ~~~(1 <<< bit)) ||| (onval <<< bit))), 1, true⟩
  else some ⟨[reply], some p, 0, false⟩

end RainCall
