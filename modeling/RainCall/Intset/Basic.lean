import RainCall.Foundation.Bytes
import RainCall.Foundation.Memory

/-!
# Integer sets

`intset.c`: a sorted array of integers of 2, 4 or 8 bytes each, in one block of memory. The width
is the widest any value ever added has needed; adding a wider one re-encodes the block in place.

The contents of the block are its bytes. Positions, lengths and byte counts are numbers as in the
source, reduced modulo `2 ^ 32` where the source computes a byte count in 32 bits.
-/

namespace RainCall

def intsetEncInt16 : ℕ := 2

def intsetEncInt32 : ℕ := 4

def intsetEncInt64 : ℕ := 8

structure Intset where
  encoding : ℕ
  length : ℕ
  contents : Bytes
  deriving DecidableEq, Repr

def _intsetValueEncoding (v : ℤ) : ℕ :=
  if v < -(2 ^ 31) ∨ v > 2 ^ 31 - 1 then intsetEncInt64
  else if v < -(2 ^ 15) ∨ v > 2 ^ 15 - 1 then intsetEncInt32
  else intsetEncInt16

variable (is : Intset)

def _intsetGetEncoded (pos enc : ℕ) : ℤ :=
  ofLeSignedBytes ((is.contents.drop (pos * enc)).take enc)

def _intsetGet (pos : ℕ) : ℤ := _intsetGetEncoded is pos is.encoding

def _intsetSet (pos : ℕ) (value : ℤ) : Intset :=
  { is with
    contents := overwrite is.contents (pos * is.encoding) (leSignedBytes is.encoding value) }

def intsetNew : Intset := ⟨intsetEncInt16, 0, []⟩

/-- Resizes the block. The bytes that are new can be anything. -/
def intsetResize [Realloc UInt8] (len : ℕ) : Intset :=
  { is with contents := resizeCells is.contents (len * is.encoding) }

/-- The loop of `intsetSearch`, cut off after `fuel` rounds: the final `min`, `mid` and `cur`. -/
def intsetSearchLoop (is : Intset) (value : ℤ) : ℕ → ℤ → ℤ → ℤ → ℤ → ℤ × ℤ × ℤ
  | 0, min, _, mid, cur => (min, mid, cur)
  | fuel + 1, min, max, mid, cur =>
    if max ≥ min then
      let mid := (min + max) / 2
      let cur := _intsetGet is mid.toNat
      if value > cur then intsetSearchLoop is value fuel (mid + 1) max mid cur
      else if value < cur then intsetSearchLoop is value fuel min (mid - 1) mid cur
      else (min, mid, cur)
    else (min, mid, cur)

/-- `intsetSearch`: whether the value was found, and its position or the one to insert it at. -/
def intsetSearch (value : ℤ) : Bool × ℕ :=
  if is.length = 0 then (false, 0)
  else if value > _intsetGet is (is.length - 1) then (false, is.length)
  else if value < _intsetGet is 0 then (false, 0)
  else
    let r := intsetSearchLoop is value is.length 0 (is.length - 1) (-1) (-1)
    if value = r.2.2 then (true, r.2.1.toNat) else (false, r.1.toNat)

/-- The loop of `intsetUpgradeAndAdd` over the positions below `length`, from the last one down. -/
def intsetUpgradeLoop (curenc prepend : ℕ) : ℕ → Intset → Intset
  | 0, is => is
  | length + 1, is =>
    intsetUpgradeLoop curenc prepend length
      (_intsetSet is (length + prepend) (_intsetGetEncoded is length curenc))

/-- Re-encodes the set in the width of the value, which is in front of all members or behind them.
-/
def intsetUpgradeAndAdd [Realloc UInt8] (value : ℤ) : Intset :=
  let prepend := if value < 0 then 1 else 0
  let is₁ := intsetResize { is with encoding := _intsetValueEncoding value } (is.length + 1)
  let is₂ := intsetUpgradeLoop is.encoding prepend is.length is₁
  let is₃ := if prepend = 1 then _intsetSet is₂ 0 value else _intsetSet is₂ is.length value
  { is₃ with length := is.length + 1 }

def intsetMoveTail (source target : ℕ) : Intset :=
  let bytes := (is.length - source) * is.encoding % 2 ^ 32
  { is with
    contents := moveCells is.contents (target * is.encoding) (source * is.encoding) bytes }

/-- `intsetAdd`: the set and the success flag. -/
def intsetAdd [Realloc UInt8] (value : ℤ) : Intset × Bool :=
  if _intsetValueEncoding value > is.encoding then (intsetUpgradeAndAdd is value, true)
  else
    let r := intsetSearch is value
    if r.1 then (is, false)
    else
      let is₁ := intsetResize is (is.length + 1)
      let is₂ := if r.2 < is₁.length then intsetMoveTail is₁ r.2 (r.2 + 1) else is₁
      ({ _intsetSet is₂ r.2 value with length := is.length + 1 }, true)

/-- `intsetRemove`: the set and the success flag. -/
def intsetRemove [Realloc UInt8] (value : ℤ) : Intset × Bool :=
  let r := intsetSearch is value
  if _intsetValueEncoding value ≤ is.encoding ∧ r.1 then
    let is₁ := if r.2 < is.length - 1 then intsetMoveTail is (r.2 + 1) r.2 else is
    ({ intsetResize is₁ (is.length - 1) with length := is.length - 1 }, true)
  else (is, false)

def intsetFind (value : ℤ) : Bool :=
  _intsetValueEncoding value ≤ is.encoding ∧ (intsetSearch is value).1

def intsetMax : ℤ := _intsetGet is (is.length - 1)

def intsetMin : ℤ := _intsetGet is 0

/-- The bytes of a set in memory: the header and the contents. -/
def Intset.blob : Bytes :=
  leBytes 4 is.encoding ++ leBytes 4 is.length ++ is.contents

/-- The set at a block of memory. -/
def Intset.ofBlob (p : Bytes) : Intset :=
  ⟨ofLeBytes (p.take 4), ofLeBytes ((p.drop 4).take 4), p.drop 8⟩

/-- The loop of `intsetValidateIntegrity` over the positions from `i` on. -/
def intsetValidateLoop (is : Intset) : ℕ → ℕ → ℤ → Bool
  | 0, _, _ => true
  | n + 1, i, prev =>
    let cur := _intsetGet is i
    if cur ≤ prev then false else intsetValidateLoop is n (i + 1) cur

def intsetValidateIntegrity (p : Bytes) (deep : Bool) : Bool :=
  if p.length < 8 then false
  else
    let is := Intset.ofBlob p
    if is.encoding ≠ intsetEncInt64 ∧ is.encoding ≠ intsetEncInt32 ∧
        is.encoding ≠ intsetEncInt16 then false
    else if 8 + is.length * is.encoding ≠ p.length then false
    else if is.length = 0 then false
    else if ¬ deep then true
    else intsetValidateLoop is (is.length - 1) 1 (_intsetGet is 0)

end RainCall
