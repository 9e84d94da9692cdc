import RainCall.Foundation.SortedMap

/-!
# Slices of a sparse array

A sparse array is cut into slices of `slice_size` consecutive indices. A slice is *dense*, a window
of the slice with one slot for each offset, or *sparse*, a sorted list of the offsets in use. This
file embeds the slice functions of `sparsearray.c`: growing the window of a dense slice to the right
or to the left, changing the encoding, and reading, writing and deleting elements.

`V` is the type of the non-empty tagged values; `NULL`, the empty slot, is `none`. A failed
`serverAssert` is the result `none`, and so is writing beyond the capacity of an array.
-/

namespace RainCall

/-- The configuration read by the array code. -/
structure ArConfig where
  /-- `array-sparse-kmax`: the most elements a sparse slice may get. -/
  sparseKMax : ℕ
  /-- `array-sparse-kmin`: the most elements a dense slice may have to be demoted. -/
  sparseKMin : ℕ
deriving DecidableEq, Repr

/-- `arSlice` with encoding `AR_SLICE_DENSE`. -/
structure ArDense (V : Type*) where
  count : ℕ
  offset : ℕ
  winsize : ℕ
  maxIdx : ℕ
  items : List (Option V)
deriving DecidableEq, Repr

/-- `arSlice` with encoding `AR_SLICE_SPARSE`. -/
structure ArSparse (V : Type*) where
  count : ℕ
  cap : ℕ
  /-- The parts in use of the parallel arrays `offsets` and `values`. -/
  entries : List (ℕ × V)
deriving DecidableEq, Repr

inductive ArSlice (V : Type*)
  | dense (d : ArDense V)
  | sparse (s : ArSparse V)
deriving DecidableEq, Repr

def arSliceMinAlloc : ℕ := 8

/-- `sizeof(arSlice)` on 64-bit builds. -/
def sizeofArSlice : ℕ := 32

/-- `arSparseAllocSize` on 64-bit builds. -/
def arSparseAllocSize (cap : ℕ) : ℕ :=
  let offsetsSize := cap * 2
  let padding := (8 - offsetsSize % 8) % 8
  sizeofArSlice + offsetsSize + padding + cap * 8

/-- `arDenseAllocSize` on 64-bit builds. -/
def arDenseAllocSize (winsize : ℕ) : ℕ := sizeofArSlice + winsize * 8

/-- `nearestNextPowerOf2`; `32 - clz(count - 1)` is the binary length of `count - 1`. -/
def nearestNextPowerOf2 (count : ℕ) : ℕ := if count ≤ 1 then 1 else 2 ^ (count - 1).size

section

variable {V : Type*}

/-- `offsets[i]`. -/
def ArSparse.offsetAt (s : ArSparse V) (i : ℕ) : ℕ := (s.entries[i]?.map Prod.fst).getD 0

/-- The field `count` of a slice. -/
def ArSlice.count : ArSlice V → ℕ
  | .dense d => d.count
  | .sparse s => s.count

def arSliceMaxIdx : ArSlice V → ℕ
  | .dense d => d.maxIdx
  | .sparse s => s.offsetAt (s.count - 1)

/-! ### Dense slices -/

def arSliceDenseNew (relIdx sliceSize : ℕ) : ArDense V :=
  let offset := if sliceSize < relIdx + arSliceMinAlloc then sliceSize - arSliceMinAlloc else relIdx
  ⟨0, offset, arSliceMinAlloc, 0, List.replicate arSliceMinAlloc none⟩

/-- The data copy shared by the growth functions: a zeroed window at `newOffset` that receives the
old items. Besides the assertion of the source, the old window must not start before the new one,
because the copy would then write before the allocation. -/
def ArDense.copyTo (s : ArDense V) (newOffset newWinsize : ℕ) : Option (ArDense V) :=
  let shift := s.offset - newOffset
  if newOffset ≤ s.offset ∧ shift + s.winsize ≤ newWinsize then
    some { s with
      offset := newOffset
      winsize := newWinsize
      items := List.replicate shift none ++ s.items ++
        List.replicate (newWinsize - (shift + s.winsize)) none }
  else none

/-- `arSliceDenseGrowRight`. A window size of 32 bits can be doubled at most 32 times. -/
def arSliceDenseGrowRight (s : ArDense V) (relIdx sliceSize : ℕ) : Option (ArDense V) :=
  let doubled := doubleWhile (fun w => s.offset + w ≤ relIdx ∧ w < sliceSize) 32 s.winsize
  let newWinsize := if sliceSize ≤ doubled then sliceSize else doubled
  let newOffset :=
    if sliceSize ≤ doubled then 0
    else if sliceSize < s.offset + newWinsize then sliceSize - newWinsize
    else s.offset
  if newOffset = s.offset then
    -- realloc, and zero the new tail
    some { s with
      winsize := newWinsize
      items := s.items ++ List.replicate (newWinsize - s.winsize) none }
  else s.copyTo newOffset newWinsize

def arSliceDenseGrowLeft (s : ArDense V) (relIdx sliceSize : ℕ) : Option (ArDense V) :=
  let oldEnd := s.offset + s.winsize
  let need := oldEnd - relIdx
  let pow := nearestNextPowerOf2 need
  let atLeast := if pow < arSliceMinAlloc then arSliceMinAlloc else pow
  let newWinsize := if sliceSize < atLeast then sliceSize else atLeast
  -- the subtraction of signed integers, cut off at 0
  let newOffset := if newWinsize = sliceSize then 0 else oldEnd - newWinsize
  s.copyTo newOffset newWinsize

def arSliceDenseGrowIfNeeded (s : ArDense V) (relIdx sliceSize : ℕ) : Option (ArDense V) :=
  if s.offset + s.winsize ≤ relIdx then arSliceDenseGrowRight s relIdx sliceSize
  else if relIdx < s.offset then arSliceDenseGrowLeft s relIdx sliceSize
  else some s

/-- Store a value in the window and update `max_idx`; `added` is 1 for an empty slot. -/
def ArDense.store (d : ArDense V) (relIdx added : ℕ) (v : V) : ArDense V :=
  { d with
    items := d.items.set (relIdx - d.offset) (some v)
    count := d.count + added
    maxIdx := if d.maxIdx < relIdx then relIdx else d.maxIdx }

def arDenseUpdateMaxIdx (d : ArDense V) (deletedOff : ℕ) : ArDense V :=
  if d.count = 0 ∨ deletedOff < d.maxIdx then d
  else
    match scanDown (fun pos => (slotAt d.items pos).isSome) (d.maxIdx - d.offset + 1) with
    | some pos => { d with maxIdx := d.offset + pos }
    | none => d

/-! ### Sparse slices -/

def arSliceSparseNew (cfg : ArConfig) : ArSparse V :=
  ⟨0, if cfg.sparseKMax < 4 then cfg.sparseKMax else 4, []⟩

/-- `arSparseFindPos`: the position where `relIdx` is or should be, and whether it is there. -/
def arSparseFindPos (s : ArSparse V) (relIdx : ℕ) : ℕ × Bool :=
  let pos := lowerBound (fun mid => s.offsetAt mid < relIdx) s.count
  (pos, pos < s.count ∧ s.offsetAt pos = relIdx)

/-- The loop of `arSparsePromote` that sets the entries in the new window, with its assertions. -/
def promoteItems (offset winsize : ℕ) :
    List (ℕ × V) → List (Option V) → Option (List (Option V))
  | [], items => some items
  | (o, v) :: es, items =>
    if offset ≤ o ∧ o - offset < winsize then
      promoteItems offset winsize es (items.set (o - offset) (some v))
    else none

def arSparsePromote (s : ArSparse V) (sliceSize : ℕ) : Option (ArDense V) :=
  if s.count = 0 then some (arSliceDenseNew 0 sliceSize)
  else
    let minOff := s.offsetAt 0
    let maxOff := s.offsetAt (s.count - 1)
    let pow := nearestNextPowerOf2 (maxOff - minOff + 1)
    let atLeast := if pow < arSliceMinAlloc then arSliceMinAlloc else pow
    let winsize := if sliceSize ≤ atLeast then sliceSize else atLeast
    let offset :=
      if sliceSize ≤ atLeast then 0
      else if sliceSize < minOff + winsize then sliceSize - winsize
      else minOff
    (promoteItems offset winsize s.entries (List.replicate winsize none)).map fun items =>
      ⟨s.count, offset, winsize, maxOff, items⟩

/-- The loop of `arDenseMaybeDemote` over the slots of the window. -/
def demoteLoop (dcount : ℕ) : ℕ → List (Option V) → ArSparse V → ArSparse V
  | _, [], s => s
  | off, o :: os, s =>
    if s.count < dcount then
      match o with
      | some v =>
        demoteLoop dcount (off + 1) os
          { s with entries := s.entries ++ [(off, v)], count := s.count + 1 }
      | none => demoteLoop dcount (off + 1) os s
    else s

def arDenseMaybeDemote (cfg : ArConfig) (d : ArDense V) : ArSlice V :=
  if cfg.sparseKMax = 0 ∨ cfg.sparseKMin < d.count ∨ cfg.sparseKMax < d.count ∨
      d.winsize = arSliceMinAlloc ∨ d.winsize < 4 * cfg.sparseKMin ∨
      arDenseAllocSize d.winsize < arSparseAllocSize cfg.sparseKMin * 5 / 4 then .dense d
  else .sparse (demoteLoop d.count d.offset d.items ⟨0, cfg.sparseKMin, []⟩)

/-! ### Elements of a slice -/

/-- The part of `arGet` below the directory. -/
def ArSlice.get (s : ArSlice V) (relIdx : ℕ) : Option V :=
  match s with
  | .dense d =>
    if relIdx < d.offset ∨ d.offset + d.winsize ≤ relIdx then none
    else slotAt d.items (relIdx - d.offset)
  | .sparse s =>
    let (pos, found) := arSparseFindPos s relIdx
    if found then s.entries[pos]?.map Prod.snd else none

/-- Insert a new offset in a sparse slice that is not full for the configuration. -/
def arSparseInsert (cfg : ArConfig) (s : ArSparse V) (pos relIdx : ℕ) (v : V) :
    Option (ArSparse V) :=
  let cap :=
    if s.cap ≤ s.count then
      if cfg.sparseKMax < s.cap * 2 then cfg.sparseKMax else s.cap * 2
    else s.cap
  if s.count < cap then
    some ⟨s.count + 1, cap, s.entries.take pos ++ (relIdx, v) :: s.entries.drop pos⟩
  else none

/-- The part of `arSet` below the directory: the new slice, and 1 if an element was added. -/
def arSliceSet (cfg : ArConfig) (sliceSize : ℕ) (s : ArSlice V) (relIdx : ℕ) (v : V) :
    Option (ArSlice V × ℕ) :=
  match s with
  | .dense d =>
    (arSliceDenseGrowIfNeeded d relIdx sliceSize).map fun d' =>
      let added := if (slotAt d'.items (relIdx - d'.offset)).isNone then 1 else 0
      (.dense (d'.store relIdx added v), added)
  | .sparse s =>
    let (pos, found) := arSparseFindPos s relIdx
    if found then some (.sparse { s with entries := s.entries.set pos (relIdx, v) }, 0)
    else if cfg.sparseKMax ≤ s.count then
      (arSparsePromote s sliceSize).bind fun d =>
        (arSliceDenseGrowIfNeeded d relIdx sliceSize).map fun d' =>
          (.dense (d'.store relIdx 1 v), 1)
    else (arSparseInsert cfg s pos relIdx v).map fun s' => (.sparse s', 1)

/-- The part of `arDel` below the directory. `none` means that the element was empty already; the
slice is not yet re-encoded or freed. -/
def arSliceDel (s : ArSlice V) (relIdx : ℕ) : Option (ArSlice V) :=
  match s with
  | .dense d =>
    if relIdx < d.offset ∨ d.offset + d.winsize ≤ relIdx then none
    else if (slotAt d.items (relIdx - d.offset)).isNone then none
    else
      some (.dense (arDenseUpdateMaxIdx
        { d with items := d.items.set (relIdx - d.offset) none, count := d.count - 1 } relIdx))
  | .sparse s =>
    let (pos, found) := arSparseFindPos s relIdx
    if found then
      some (.sparse { s with
        entries := s.entries.take pos ++ s.entries.drop (pos + 1), count := s.count - 1 })
    else none

/-- The loop of `arDeleteSliceRange` over the offsets `off, ..., off + n - 1` of a dense slice; the
last component counts the deleted elements. -/
def clearItems (offset : ℕ) : ℕ → ℕ → List (Option V) × ℕ → List (Option V) × ℕ
  | _, 0, st => st
  | off, n + 1, (items, deleted) =>
    clearItems offset (off + 1) n
      (if (slotAt items (off - offset)).isSome then (items.set (off - offset) none, deleted + 1)
        else (items, deleted))

/-- The part of `arDeleteSliceRange` for a dense slice, before it is freed or demoted. -/
def arDenseDeleteRange (d : ArDense V) (delLo delHi : ℕ) : ArDense V × ℕ :=
  let winLo := d.offset
  let winHi := d.offset + d.winsize - 1
  let effLo := if winLo < delLo then delLo else winLo
  let effHi := if delHi < winHi then delHi else winHi
  if effLo ≤ effHi then
    let (items, deleted) := clearItems d.offset effLo (effHi + 1 - effLo) (d.items, 0)
    let d' := { d with items := items, count := d.count - deleted }
    if 0 < d'.count ∧ effLo ≤ d'.maxIdx then
      ({ d' with maxIdx := d'.offset +
        ((scanDown (fun pos => (slotAt d'.items pos).isSome) d'.winsize).getD 0) }, deleted)
    else (d', deleted)
  else (d, 0)

/-- The part of `arDeleteSliceRange` for a sparse slice, before it is freed. -/
def arSparseDeleteRange (s : ArSparse V) (delLo delHi : ℕ) : ArSparse V × ℕ :=
  let first := (arSparseFindPos s delLo).1
  let (pos, found) := arSparseFindPos s delHi
  let last := if found then pos + 1 else pos
  if first < last then
    ({ s with
        entries := s.entries.take first ++ s.entries.drop last
        count := s.count - (last - first) }, last - first)
  else (s, 0)

end

end RainCall
