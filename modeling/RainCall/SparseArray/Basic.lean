import RainCall.SparseArray.Slice

/-!
# The directory of a sparse array and the array operations

The slices of an array are found through a directory. A *flat* directory is an array indexed by
slice id. From slice id 2048 on the directory is a *superdir*, a sorted array of blocks of 2048
slots. This file embeds the directory functions of `sparsearray.c` and `arGet`, `arSet`, `arDel`,
`arDeleteRange`, `arTruncate`, `arLen` and `arMayPromoteToDenseForRangeSet`.

`dir_alloc` and `sdir_len` are the lengths of the lists. Memory accounting is left out.
-/

namespace RainCall

def arSuperBlockSlots : ℕ := 2048

def arInsertIdxNone : ℕ := 2 ^ 64 - 1

structure ArSDirEntry (V : Type*) where
  /-- `slice_id / AR_SUPER_BLOCK_SLOTS`. -/
  blockId : ℕ
  /-- Non-`NULL` slots in this block. -/
  count : ℕ
  slots : List (Option (ArSlice V))
deriving DecidableEq, Repr

/-- The directory: `dir`, or `superdir` when that is not `NULL`. -/
inductive ArDir (V : Type*)
  | flat (dir : List (Option (ArSlice V)))
  | super (superdir : List (ArSDirEntry V))
deriving DecidableEq, Repr

structure RedisArray (V : Type*) where
  count : ℕ
  /-- Last insert index, or `AR_INSERT_IDX_NONE`. -/
  insertIdx : ℕ
  /-- Highest non-`NULL` slice index. -/
  dirHighestUsed : ℕ
  numSlices : ℕ
  sliceSize : ℕ
  dir : ArDir V
deriving DecidableEq, Repr

/-! ### Index arithmetic -/

/-- `arSliceBits`: the number of shifts until 1 is left. -/
def arSliceBits (sliceSize : ℕ) : ℕ := sliceSize.log2

def arSliceId (idx sliceSize : ℕ) : ℕ := idx >>> arSliceBits sliceSize

def arSliceOff (idx sliceSize : ℕ) : ℕ := idx &&& (sliceSize - 1)

def arMakeIdx (sliceId off sliceSize : ℕ) : ℕ := (sliceId <<< arSliceBits sliceSize) ||| off

section

variable {V : Type*}

def arNew (sliceSize : ℕ) : RedisArray V := ⟨0, arInsertIdxNone, 0, 0, sliceSize, .flat []⟩

/-! ### The directory -/

/-- `arSuperDirFind`: where the block is or should be, and whether it is there. -/
def arSuperDirFind (sd : List (ArSDirEntry V)) (blockId : ℕ) : ℕ × Bool :=
  let blockIdAt := fun i => (sd[i]?.map ArSDirEntry.blockId).getD 0
  let lo := lowerBound (fun mid => blockIdAt mid < blockId) sd.length
  (lo, lo < sd.length ∧ blockIdAt lo = blockId)

/-- `arPromoteToSuperDir`: the flat directory becomes block 0. -/
def arPromoteToSuperDir (dir : List (Option (ArSlice V))) : List (ArSDirEntry V) :=
  if 0 < dir.length then
    [⟨0, dir.countP Option.isSome,
      dir ++ List.replicate (arSuperBlockSlots - dir.length) none⟩]
  else []

def arDirGrow (dir : ArDir V) (sliceId : ℕ) : ArDir V :=
  match dir with
  | .super sd => .super sd
  | .flat d =>
    if arSuperBlockSlots ≤ sliceId then .super (arPromoteToSuperDir d)
    else if sliceId < d.length then .flat d
    else
      let newAlloc := doubleWhile (fun n => n ≤ sliceId) 64 (if d.length = 0 then 1 else d.length)
      .flat (d ++ List.replicate (newAlloc - d.length) none)

def arGetSlice (dir : ArDir V) (sliceId : ℕ) : Option (ArSlice V) :=
  match dir with
  | .super sd =>
    let (pos, found) := arSuperDirFind sd (sliceId / arSuperBlockSlots)
    if found then sd[pos]?.bind fun e => slotAt e.slots (sliceId % arSuperBlockSlots) else none
  | .flat d => if d.length ≤ sliceId then none else slotAt d sliceId

/-- `arSuperDirEnsureSlot`, the part that inserts a missing block. -/
def arSuperDirEnsureBlock (sd : List (ArSDirEntry V)) (blockId : ℕ) : List (ArSDirEntry V) :=
  let (pos, found) := arSuperDirFind sd blockId
  if found then sd else sd.insertIdx pos ⟨blockId, 0, List.replicate arSuperBlockSlots none⟩

/-- `arSetSlice` for a non-`NULL` slice in a superdir. -/
def arSuperDirSet (sd : List (ArSDirEntry V)) (numSlices sliceId : ℕ) (s : ArSlice V) :
    List (ArSDirEntry V) × ℕ :=
  let off := sliceId % arSuperBlockSlots
  let sd' := arSuperDirEnsureBlock sd (sliceId / arSuperBlockSlots)
  let pos := (arSuperDirFind sd' (sliceId / arSuperBlockSlots)).1
  match sd'[pos]? with
  | none => (sd', numSlices)
  | some e =>
    let added := if (slotAt e.slots off).isNone then 1 else 0
    (sd'.set pos { e with count := e.count + added, slots := e.slots.set off (some s) },
      numSlices + added)

/-- `arSetSlice` for `NULL` in a superdir. A block that becomes empty is removed. -/
def arSuperDirClear (sd : List (ArSDirEntry V)) (numSlices sliceId : ℕ) :
    List (ArSDirEntry V) × ℕ :=
  let off := sliceId % arSuperBlockSlots
  let (pos, found) := arSuperDirFind sd (sliceId / arSuperBlockSlots)
  match if found then sd[pos]? else none with
  | none => (sd, numSlices)
  | some e =>
    if (slotAt e.slots off).isNone then (sd, numSlices)
    else
      let e' := { e with count := e.count - 1, slots := e.slots.set off none }
      (if e'.count = 0 then sd.eraseIdx pos else sd.set pos e', numSlices - 1)

def arSetSlice (ar : RedisArray V) (sliceId : ℕ) (s : Option (ArSlice V)) : RedisArray V :=
  match ar.dir, s with
  | .super sd, some s =>
    let (sd', n) := arSuperDirSet sd ar.numSlices sliceId s
    { ar with dir := .super sd', numSlices := n }
  | .super sd, none =>
    let (sd', n) := arSuperDirClear sd ar.numSlices sliceId
    { ar with dir := .super sd', numSlices := n }
  | .flat d, s =>
    let old := slotAt d sliceId
    { ar with
      dir := .flat (d.set sliceId s)
      numSlices :=
        if s.isNone ∧ old.isSome then ar.numSlices - 1
        else if s.isSome ∧ old.isNone then ar.numSlices + 1
        else ar.numSlices }

def arDirMaybeShrink (ar : RedisArray V) : RedisArray V :=
  match ar.dir with
  | .super _ => ar
  | .flat d =>
    if ar.count = 0 ∨ d.length * 9 / 10 ≤ ar.dirHighestUsed then ar
    else
      let newAlloc := doubleWhile (fun n => n ≤ ar.dirHighestUsed) 64 1
      if d.length ≤ newAlloc then ar else { ar with dir := .flat (d.take newAlloc) }

/-- The highest non-`NULL` slot of the last non-empty block, searching the first `n` blocks from the
end. -/
def highestInBlocks (sd : List (ArSDirEntry V)) : ℕ → Option ℕ
  | 0 => none
  | bi + 1 =>
    match sd[bi]? with
    | none => highestInBlocks sd bi
    | some e =>
      if e.count = 0 then highestInBlocks sd bi
      else
        match scanDown (fun si => (slotAt e.slots si).isSome) arSuperBlockSlots with
        | some si => some (e.blockId * arSuperBlockSlots + si)
        | none => highestInBlocks sd bi

def arDirUpdateHighest (ar : RedisArray V) (freedId : ℕ) : RedisArray V :=
  if ar.count = 0 ∨ freedId < ar.dirHighestUsed then ar
  else
    { ar with
      dirHighestUsed :=
        match ar.dir with
        | .super sd => (highestInBlocks sd sd.length).getD 0
        | .flat d => (scanDown (fun i => (slotAt d i).isSome) freedId).getD 0 }

/-! ### Core operations -/

def arGet (ar : RedisArray V) (idx : ℕ) : Option V :=
  (arGetSlice ar.dir (arSliceId idx ar.sliceSize)).bind
    fun s => s.get (arSliceOff idx ar.sliceSize)

variable (cfg : ArConfig) (ar : RedisArray V)

/-- The slice created by `arSet` when there is none. -/
def arNewSlice (relIdx sliceSize : ℕ) : ArSlice V :=
  if 0 < cfg.sparseKMax then .sparse (arSliceSparseNew cfg)
  else .dense (arSliceDenseNew relIdx sliceSize)

def arSet (idx : ℕ) (v : V) : Option (RedisArray V) :=
  if idx = 2 ^ 64 - 1 then none
  else
    let sliceId := arSliceId idx ar.sliceSize
    let relIdx := arSliceOff idx ar.sliceSize
    let ar₁ := { ar with dir := arDirGrow ar.dir sliceId }
    let s := (arGetSlice ar₁.dir sliceId).getD (arNewSlice cfg relIdx ar.sliceSize)
    (arSliceSet cfg ar.sliceSize s relIdx v).map fun (s', added) =>
      let ar₂ := arSetSlice ar₁ sliceId (some s')
      let count := ar.count + added
      { ar₂ with
        count := count
        dirHighestUsed :=
          if ar.dirHighestUsed < sliceId ∨ count = 1 then sliceId else ar.dirHighestUsed }

/-- `arDel`. Returns whether an element was deleted. -/
def arDel (idx : ℕ) : RedisArray V × Bool :=
  let sliceId := arSliceId idx ar.sliceSize
  match (arGetSlice ar.dir sliceId).bind fun s => arSliceDel s (arSliceOff idx ar.sliceSize) with
  | none => (ar, false)
  | some s =>
    let ar₁ := { ar with count := ar.count - 1 }
    if s.count = 0 then
      -- the slice is freed
      (arDirMaybeShrink (arDirUpdateHighest (arSetSlice ar₁ sliceId none) sliceId), true)
    else
      match s with
      | .dense d => (arSetSlice ar₁ sliceId (some (arDenseMaybeDemote cfg d)), true)
      | .sparse s => (arSetSlice ar₁ sliceId (some (.sparse s)), true)

/-- `arDeleteSliceRange`. Returns the number of deleted elements. -/
def arDeleteSliceRange (sliceId delLo delHi : ℕ) : RedisArray V × ℕ :=
  match arGetSlice ar.dir sliceId with
  | none => (ar, 0)
  | some (.dense d) =>
    let (d', deleted) := arDenseDeleteRange d delLo delHi
    let ar₁ := { ar with count := ar.count - deleted }
    (arSetSlice ar₁ sliceId (if d'.count = 0 then none else some (arDenseMaybeDemote cfg d')),
      deleted)
  | some (.sparse s) =>
    let (s', deleted) := arSparseDeleteRange s delLo delHi
    let ar₁ := { ar with count := ar.count - deleted }
    (arSetSlice ar₁ sliceId (if s'.count = 0 then none else some (.sparse s')), deleted)

/-- The state of the loops of `arDeleteRange` over whole slices. -/
structure SweepState (V : Type*) where
  /-- The slots of the directory or of the block being swept. -/
  slots : List (Option (ArSlice V))
  freed : ℕ
  deleted : ℕ
  /-- `touched_highest`. -/
  touched : Bool
deriving DecidableEq, Repr

/-- Free the slices in the slots `si, ..., si + n - 1`; slot `j` has the slice id `base + j`. -/
def sweepSlots (base highest : ℕ) : ℕ → ℕ → SweepState V → SweepState V
  | _, 0, st => st
  | si, n + 1, st =>
    sweepSlots base highest (si + 1) n
      (match slotAt st.slots si with
        | none => st
        | some s =>
          { slots := st.slots.set si none
            freed := st.freed + 1
            deleted := st.deleted + s.count
            touched := st.touched || decide (highest ≤ base + si) })

/-- The state of the loop of `arDeleteRange` over the blocks of a superdir. -/
structure SweepBlocks (V : Type*) where
  superdir : List (ArSDirEntry V)
  freed : ℕ
  deleted : ℕ
  /-- `touched_highest`. -/
  touched : Bool
deriving DecidableEq, Repr

/-- Free the slices with ids from `midLo` to `midHi` in the blocks at the positions
`start, ..., start + n - 1` of the superdir, from the last to the first. -/
def sweepBlocks (midLo midHi highest start : ℕ) : ℕ → SweepBlocks V → SweepBlocks V
  | 0, st => st
  | n + 1, st =>
    let bi := start + n
    match st.superdir[bi]? with
    | none => sweepBlocks midLo midHi highest start n st
    | some e =>
      let blockBase := e.blockId * arSuperBlockSlots
      let blockEnd := blockBase + arSuperBlockSlots - 1
      let firstSi := if blockBase < midLo then midLo - blockBase else 0
      let lastSi := if midHi < blockEnd then midHi - blockBase else arSuperBlockSlots - 1
      let sw := sweepSlots blockBase highest firstSi (lastSi + 1 - firstSi)
        ⟨e.slots, 0, 0, st.touched⟩
      let e' := { e with slots := sw.slots, count := e.count - sw.freed }
      sweepBlocks midLo midHi highest start n
        { superdir :=
            if e'.count = 0 then st.superdir.eraseIdx bi else st.superdir.set bi e'
          freed := st.freed + sw.freed
          deleted := st.deleted + sw.deleted
          touched := sw.touched }

/-- The middle part of `arDeleteRange`: free the slices with ids from `midLo` to `midHi`. -/
def arDeleteMiddle (midLo midHi : ℕ) (touched : Bool) : RedisArray V × ℕ × Bool :=
  match ar.dir with
  | .super sd =>
    let start := (arSuperDirFind sd (midLo / arSuperBlockSlots)).1
    let (pos, found) := arSuperDirFind sd (midHi / arSuperBlockSlots)
    let stop := if found then pos + 1 else pos
    let st := sweepBlocks midLo midHi ar.dirHighestUsed start (stop - start) ⟨sd, 0, 0, touched⟩
    ({ ar with
        dir := .super st.superdir
        numSlices := ar.numSlices - st.freed
        count := ar.count - st.deleted }, st.deleted, st.touched)
  | .flat d =>
    let stop := if d.length ≤ midHi then d.length - 1 else midHi
    let st := sweepSlots 0 ar.dirHighestUsed midLo (stop + 1 - midLo) ⟨d, 0, 0, touched⟩
    ({ ar with
        dir := .flat st.slots
        numSlices := ar.numSlices - st.freed
        count := ar.count - st.deleted }, st.deleted, st.touched)

/-- The scan for the highest slice at the end of `arDeleteRange`. -/
def arHighestSlice (dir : ArDir V) : ℕ :=
  match dir with
  | .super sd => (highestInBlocks sd sd.length).getD 0
  | .flat d => (scanDown (fun i => (slotAt d i).isSome) d.length).getD 0

/-- `arDeleteRange`. Returns the number of deleted elements. -/
def arDeleteRange (lo hi : ℕ) : RedisArray V × ℕ :=
  if ar.count = 0 ∨ hi < lo then (ar, 0)
  else
    let loSlice := arSliceId lo ar.sliceSize
    let hiSlice := arSliceId hi ar.sliceSize
    let loOff := arSliceOff lo ar.sliceSize
    let hiOff := arSliceOff hi ar.sliceSize
    let (ar₃, deleted, touched) :=
      if loSlice = hiSlice then
        let (ar₁, deleted) := arDeleteSliceRange cfg ar loSlice loOff hiOff
        (ar₁, deleted, decide (ar₁.dirHighestUsed ≤ loSlice))
      else
        let (ar₁, deleted₁) := arDeleteSliceRange cfg ar loSlice loOff (ar.sliceSize - 1)
        let (ar₂, deleted₂) := arDeleteSliceRange cfg ar₁ hiSlice 0 hiOff
        let touched := decide (ar₂.dirHighestUsed ≤ hiSlice)
        if loSlice + 1 ≤ hiSlice - 1 then
          let (ar₃, deleted₃, touched) := arDeleteMiddle ar₂ (loSlice + 1) (hiSlice - 1) touched
          (ar₃, deleted₁ + deleted₂ + deleted₃, touched)
        else (ar₂, deleted₁ + deleted₂, touched)
    let highest :=
      if ar₃.count = 0 then 0
      else if touched then arHighestSlice ar₃.dir
      else ar₃.dirHighestUsed
    (arDirMaybeShrink { ar₃ with dirHighestUsed := highest }, deleted)

def arLen : ℕ :=
  if ar.count = 0 then 0
  else
    match arGetSlice ar.dir ar.dirHighestUsed with
    | none => 0
    | some s => arMakeIdx ar.dirHighestUsed (arSliceMaxIdx s) ar.sliceSize + 1

def arCount : ℕ := ar.count

def arTruncate (limit : ℕ) : RedisArray V :=
  if ar.count = 0 then ar
  else if arLen ar ≤ limit then ar
  else (arDeleteRange cfg ar limit (arLen ar - 1)).1

/-! ### Range set optimization -/

/-- The loop body of `arMayPromoteToDenseForRangeSet` for one slice. -/
def arPromoteSliceForRangeSet (lo hi sid : ℕ) : Option (RedisArray V) :=
  let bits := arSliceBits ar.sliceSize
  let rangeStart := if sid = arSliceId lo ar.sliceSize then lo else sid <<< bits
  let rangeEnd := if sid = arSliceId hi ar.sliceSize then hi else ((sid + 1) <<< bits) - 1
  let startOff := arSliceOff rangeStart ar.sliceSize
  let endOff := arSliceOff rangeEnd ar.sliceSize
  let rangeSize := endOff - startOff + 1
  match arGetSlice ar.dir sid with
  | none =>
    if cfg.sparseKMax < rangeSize then
      some (arSetSlice ar sid (some (.dense (arSliceDenseNew startOff ar.sliceSize))))
    else some ar
  | some (.dense _) => some ar
  | some (.sparse s) =>
    let existing := s.entries.countP fun e => startOff ≤ e.1 ∧ e.1 ≤ endOff
    if cfg.sparseKMax < rangeSize ∨ cfg.sparseKMax < s.count + (rangeSize - existing) then
      (arSparsePromote s ar.sliceSize).map fun d => arSetSlice ar sid (some (.dense d))
    else some ar

/-- The loop of `arMayPromoteToDenseForRangeSet` over the slice ids `sid, ..., sid + n - 1`. -/
def arPromoteSlicesForRangeSet (cfg : ArConfig) (lo hi : ℕ) :
    ℕ → ℕ → RedisArray V → Option (RedisArray V)
  | _, 0, ar => some ar
  | sid, n + 1, ar =>
    (arPromoteSliceForRangeSet cfg ar lo hi sid).bind
      (arPromoteSlicesForRangeSet cfg lo hi (sid + 1) n)

def arMayPromoteToDenseForRangeSet (lo hi : ℕ) : Option (RedisArray V) :=
  if cfg.sparseKMax = 0 then some ar
  else
    let sliceLo := arSliceId lo ar.sliceSize
    let sliceHi := arSliceId hi ar.sliceSize
    arPromoteSlicesForRangeSet cfg lo hi sliceLo (sliceHi + 1 - sliceLo)
      { ar with dir := arDirGrow ar.dir sliceHi }

end

end RainCall
