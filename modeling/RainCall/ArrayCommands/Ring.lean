import RainCall.Foundation.Ring
import RainCall.SparseArray.Refinement
import RainCall.SparseArray.ValueSpec

/-!
# Ring buffers over arrays

`t_array.c`: `ARRING` writes values into a ring whose shape is not stored. The number of slots in
use is `arLen`, the newest slot is `insert_idx`, and a call with another size rebuilds the array
when the slots in use are not those of the new ring. `ARLASTITEMS` reads the newest entries.

A key is an optional array: `none` is a missing key.
-/

namespace RainCall

/-- The array configuration of the server: the encoding thresholds and the slice size of new
arrays. -/
structure ArServerConfig extends ArConfig where
  sliceSize : ℕ
  /-- The configuration only accepts powers of two in a range. -/
  valid : ValidSliceSize sliceSize

def addReplyArrayValue (ft : FloatText) : Option ArValue → Option (Option Bytes)
  | none => some none
  | some v => (arDecode ft v).map some

/-- `arRingDupValue`: immediate values are copied, heap strings are encoded again. -/
def arRingDupValue (ft : FloatText) (v : ArValue) : Option ArValue :=
  match v with
  | .imm w => some (.imm w)
  | .ptr p => arEncode ft ((arStringData p).take (arStringLen p))

end RainCall
