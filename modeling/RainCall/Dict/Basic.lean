import RainCall.Foundation.Buckets

/-!
# The hash table `dict`: data model, resizing and incremental rehashing

This file embeds the part of `dict.c` that moves entries between the two hash tables of a dict:
`_dictResize` allocates the second table, `dictRehash` and `_dictBucketRehash` migrate buckets, and
`dictCheckRehashingCompleted` drops the first table once it is empty.

A table is the list of its buckets and a bucket the list of its chained entries, head first. The
exponent `-1` of an unallocated table is `none`. Pointer tagging of `no_value` dicts only decides
how an entry is laid out in memory, so an entry here is always its stored key and its value. A
failed `assert` is the result `none`.

The callbacks `rehashingStarted`, `rehashingCompleted` and `bucketChanged` of the dict type belong
to the owner of the dict. Each invocation is appended to `Dict.trace` with the sizes the callback
would read from the dict.
-/

namespace RainCall

/-- `struct dictEntry`: the stored key and the value. -/
structure DictEntry (S V : Type*) where
  key : S
  /-- The value; dicts with `no_value` use `Unit`. -/
  val : V
deriving DecidableEq, Repr

/-- `dictResizeEnable`, the values of the global `dict_can_resize`. -/
inductive DictResizeEnable
  | enable
  | avoid
  | forbid
deriving DecidableEq, Repr

/-- The fields of `dictType` read by the modelled functions. -/
structure DictType (K S : Type*) where
  /-- The 64-bit hash of a lookup key. -/
  hashFunction : K → BitVec 64
  /-- The lookup key of a stored key object (the identity when the two coincide). -/
  keyFromStoredKey : S → K
  /-- `resizeAllowed(moreMem, usedRatio)`, the ratio given as used entries and buckets. -/
  resizeAllowed : ℕ → ℕ → ℕ → Bool
  /-- Rehash the whole table at once when it is resized. -/
  forceFullRehash : Bool

/-- One invocation of a callback of the dict type, with the data it reads. -/
inductive DictCallback
  | rehashingStarted (oldSize : ℕ)
  | rehashingCompleted (oldSize : ℕ)
  | bucketChanged (delta : ℤ)
deriving DecidableEq, Repr

/-- One hash table: `ht_size_exp[i]`, `ht_used[i]` and `ht_table[i]`. -/
structure DictHt (S V : Type*) where
  /-- Exponent of the number of buckets, `none` for the exponent `-1`. -/
  sizeExp : Option ℕ
  used : ℕ
  table : List (List (DictEntry S V))
deriving DecidableEq, Repr

/-- `struct dict`. -/
structure Dict (S V : Type*) where
  ht0 : DictHt S V
  /-- Table 1, allocated only while rehashing. -/
  ht1 : DictHt S V
  /-- Next bucket of table 0 to rehash, `-1` when not rehashing. -/
  rehashidx : ℤ
  /-- Rehashing is paused while positive. -/
  pauserehash : ℕ
  /-- Automatic resizing is paused while positive. -/
  pauseAutoResize : ℤ
  trace : List DictCallback
deriving DecidableEq, Repr

def dicthtSize : Option ℕ → ℕ
  | none => 0
  | some e => 2 ^ e

def dicthtSizeMask : Option ℕ → ℕ
  | none => 0
  | some e => 2 ^ e - 1

/-- The comparison `<` of two exponents, `-1` being below every allocated one. -/
def sizeExpLt : Option ℕ → Option ℕ → Bool
  | _, none => false
  | none, some _ => true
  | some e, some e' => e < e'

def dictHtInitialExp : ℕ := 2

def dictHtInitialSize : ℕ := 2 ^ dictHtInitialExp

def hashtableMinFill : ℕ := 8

def dictForceResizeRatio : ℕ := 4

/-- The table left by `_dictReset`. -/
def DictHt.reset {S V : Type*} : DictHt S V := ⟨none, 0, []⟩

section

variable {K S V : Type*}

/-- `_dictInit`, applied to a fresh dict by `dictCreate`. -/
def dictCreate : Dict S V := ⟨DictHt.reset, DictHt.reset, -1, 0, 0, []⟩

def dictSize (d : Dict S V) : ℕ := d.ht0.used + d.ht1.used

def dictBuckets (d : Dict S V) : ℕ := dicthtSize d.ht0.sizeExp + dicthtSize d.ht1.sizeExp

def dictIsRehashing (d : Dict S V) : Prop := d.rehashidx ≠ -1

instance (d : Dict S V) : Decidable (dictIsRehashing d) :=
  inferInstanceAs (Decidable (d.rehashidx ≠ -1))

/-- The lookup key of an entry: `dictStoredKey2Key(d, dictGetKey(de))`. -/
def DictType.entryKey (ty : DictType K S) (e : DictEntry S V) : K := ty.keyFromStoredKey e.key

/-- The bucket of a key in a table of the given exponent: `dictGetHash(d, key) & mask`. -/
def DictType.bucketIdx (ty : DictType K S) (exp : Option ℕ) (k : K) : ℕ :=
  (ty.hashFunction k).toNat &&& dicthtSizeMask exp

/-- Link an entry at the head of bucket `h` and count it. -/
def DictHt.push (ht : DictHt S V) (h : ℕ) (e : DictEntry S V) : DictHt S V :=
  { ht with table := ht.table.set h (e :: bucketAt ht.table h), used := ht.used + 1 }

/-- One iteration of the loop of `rehashEntriesInBucketAtIndex`: move the entry `de` of bucket `idx`
of table 0 to table 1. When the table shrinks the new bucket is computed from the old one. -/
def rehashEntry (ty : DictType K S) (idx : ℕ) (d : Dict S V) (de : DictEntry S V) : Dict S V :=
  let h := if sizeExpLt d.ht0.sizeExp d.ht1.sizeExp then ty.bucketIdx d.ht1.sizeExp (ty.entryKey de)
    else idx &&& dicthtSizeMask d.ht1.sizeExp
  { d with ht0 := { d.ht0 with used := d.ht0.used - 1 }, ht1 := d.ht1.push h de }

def rehashEntriesInBucketAtIndex (ty : DictType K S) (d : Dict S V) (idx : ℕ) : Dict S V :=
  let d' := (bucketAt d.ht0.table idx).foldl (rehashEntry ty idx) d
  { d' with ht0 := { d'.ht0 with table := d'.ht0.table.set idx [] } }

/-- `dictCheckRehashingCompleted`: drop table 0 once it is empty. Returns whether it did. -/
def dictCheckRehashingCompleted (d : Dict S V) : Dict S V × Bool :=
  if d.ht0.used ≠ 0 then (d, false)
  else
    ({ d with
        trace := d.trace ++ [.rehashingCompleted (dicthtSize d.ht0.sizeExp),
          .bucketChanged (-(dicthtSize d.ht0.sizeExp : ℤ))]
        ht0 := d.ht1
        ht1 := DictHt.reset
        rehashidx := -1 }, true)

/-- Whether `dict_can_resize` keeps the dict from rehashing: the test shared by `dictRehash` and
`_dictBucketRehash`. -/
def rehashForbidden (canResize : DictResizeEnable) (d : Dict S V) : Prop :=
  let s0 := dicthtSize d.ht0.sizeExp
  let s1 := dicthtSize d.ht1.sizeExp
  canResize = .forbid ∨ ¬ dictIsRehashing d ∨
    (canResize = .avoid ∧ ((s0 < s1 ∧ s1 < dictForceResizeRatio * s0) ∨
      (s1 < s0 ∧ s0 < hashtableMinFill * dictForceResizeRatio * s1)))

instance (canResize : DictResizeEnable) (d : Dict S V) : Decidable (rehashForbidden canResize d) :=
  inferInstanceAs (Decidable (_ ∨ _ ∨ _))

/-- The inner loop of `dictRehash`: advance `rehashidx` over empty buckets. `none` stands for
having visited the allowed number of them, otherwise the remaining number of visits is returned. -/
def skipEmptyBuckets : ℕ → Dict S V → Dict S V × Option ℕ
  | 0, d => (d, none)
  | emptyVisits + 1, d =>
    if bucketAt d.ht0.table d.rehashidx.toNat = [] then
      let d' := { d with rehashidx := d.rehashidx + 1 }
      if emptyVisits = 0 then (d', none) else skipEmptyBuckets emptyVisits d'
    else (d, some (emptyVisits + 1))

/-- The outer loop of `dictRehash`, with `n` buckets left to move. -/
def dictRehashLoop (ty : DictType K S) : ℕ → ℕ → Dict S V → Option (Dict S V × Bool)
  | 0, _, d => let r := dictCheckRehashingCompleted d; some (r.1, !r.2)
  | n + 1, emptyVisits, d =>
    if d.ht0.used = 0 then let r := dictCheckRehashingCompleted d; some (r.1, !r.2)
    else if ¬ d.rehashidx < dicthtSize d.ht0.sizeExp then none
    else
      match skipEmptyBuckets emptyVisits d with
      | (d', none) => some (d', true)
      | (d', some emptyVisits') =>
        let d'' := rehashEntriesInBucketAtIndex ty d' d'.rehashidx.toNat
        dictRehashLoop ty n emptyVisits' { d'' with rehashidx := d''.rehashidx + 1 }

variable (ty : DictType K S) (canResize : DictResizeEnable) (d : Dict S V)

/-- `dictRehash`: `n` steps of incremental rehashing. Returns whether keys are left to move. -/
def dictRehash (n : ℕ) : Option (Dict S V × Bool) :=
  if rehashForbidden canResize d then some (d, false)
  else dictRehashLoop ty n (n * 10) d

/-- `_dictBucketRehash`: rehash the single bucket `idx`. -/
def _dictBucketRehash (idx : ℕ) : Dict S V :=
  if d.pauserehash ≠ 0 then d
  else if rehashForbidden canResize d then d
  else (dictCheckRehashingCompleted (rehashEntriesInBucketAtIndex ty d idx)).1

def _dictRehashStepIfNeeded (visitedIdx : ℕ) : Option (Dict S V) :=
  if ¬ dictIsRehashing d ∨ d.pauserehash ≠ 0 then some d
  else if d.rehashidx ≤ visitedIdx ∧ bucketAt d.ht0.table visitedIdx ≠ [] then
    some (_dictBucketRehash ty canResize d visitedIdx)
  else (dictRehash ty canResize d 1).map Prod.fst

def _dictRehashStep : Option (Dict S V) :=
  if d.pauserehash = 0 then (dictRehash ty canResize d 1).map Prod.fst else some d

/-- `_dictNextExp`; `64 - clz(size - 1)` is the binary length of `size - 1`. -/
def _dictNextExp (size : ℕ) : ℕ :=
  if size ≤ dictHtInitialSize then dictHtInitialExp
  else if 2 ^ 63 - 1 ≤ size then 63
  else (size - 1).size

/-- The loop `while (dictRehash(d, 1000))` of `_dictResize`, cut off after `fuel` calls. -/
def rehashAll (ty : DictType K S) (canResize : DictResizeEnable) : ℕ → Dict S V → Option (Dict S V)
  | 0, _ => none
  | fuel + 1, d =>
    (dictRehash ty canResize d 1000).bind fun r =>
      if r.2 then rehashAll ty canResize fuel r.1 else some r.1

/-- `_dictResize`. Returns whether the resize was performed. -/
def _dictResize (size : ℕ) : Option (Dict S V × Bool) :=
  if dictIsRehashing d then none
  else
    let newExp := _dictNextExp size
    let newsize := dicthtSize (some newExp)
    -- a table whose byte size overflows is refused
    if newsize < size ∨ newsize * 8 % 2 ^ 64 < newsize then some (d, false)
    else if some newExp = d.ht0.sizeExp then some (d, false)
    else
      let newHt : DictHt S V := ⟨some newExp, 0, List.replicate newsize []⟩
      let oldSize := dicthtSize d.ht0.sizeExp
      let started := d.trace ++ [.rehashingStarted oldSize, .bucketChanged newsize]
      if d.ht0.sizeExp = none ∨ d.ht0.used = 0 then
        some ({ d with
          trace := started ++ [.rehashingCompleted oldSize, .bucketChanged (-(oldSize : ℤ))]
          ht0 := newHt
          ht1 := DictHt.reset
          rehashidx := -1 }, true)
      else
        let d' := { d with trace := started, ht1 := newHt, rehashidx := 0 }
        if ty.forceFullRehash then (rehashAll ty canResize (oldSize + 1) d').map (·, true)
        else some (d', true)

def dictExpand (size : ℕ) : Option (Dict S V × Bool) :=
  if dictIsRehashing d ∨ size < d.ht0.used ∨ size ≤ dicthtSize d.ht0.sizeExp then some (d, false)
  else _dictResize ty canResize d size

def dictShrink (size : ℕ) : Option (Dict S V × Bool) :=
  if dictIsRehashing d ∨ size < d.ht0.used ∨ dicthtSize d.ht0.sizeExp ≤ size then some (d, false)
  else _dictResize ty canResize d size

def dictTypeResizeAllowed (size : ℕ) : Bool :=
  ty.resizeAllowed (dicthtSize (some (_dictNextExp size)) * 8) d.ht0.used
    (dicthtSize d.ht0.sizeExp)

/-- `dictExpandIfNeeded`. The Boolean result is `DICT_OK`. -/
def dictExpandIfNeeded : Option (Dict S V × Bool) :=
  let size := dicthtSize d.ht0.sizeExp
  if dictIsRehashing d then some (d, true)
  else if size = 0 then (dictExpand ty canResize d dictHtInitialSize).map fun r => (r.1, true)
  else if (canResize = .enable ∧ size ≤ d.ht0.used) ∨
      (canResize ≠ .forbid ∧ dictForceResizeRatio * size ≤ d.ht0.used) then
    if dictTypeResizeAllowed ty d (d.ht0.used + 1) then
      (dictExpand ty canResize d (d.ht0.used + 1)).map fun r => (r.1, true)
    else some (d, true)
  else some (d, false)

/-- `_dictExpandIfNeeded`; its callers ignore the result code. -/
def _dictExpandIfNeeded : Option (Dict S V) :=
  if 0 < d.pauseAutoResize then some d
  else (dictExpandIfNeeded ty canResize d).map Prod.fst

/-- `dictShrinkIfNeeded`. The Boolean result is `DICT_OK`. -/
def dictShrinkIfNeeded : Option (Dict S V × Bool) :=
  let size := dicthtSize d.ht0.sizeExp
  if dictIsRehashing d then some (d, true)
  else if size ≤ dictHtInitialSize then some (d, true)
  else if (canResize = .enable ∧ d.ht0.used * hashtableMinFill ≤ size) ∨
      (canResize ≠ .forbid ∧
        d.ht0.used * hashtableMinFill * dictForceResizeRatio ≤ size) then
    if dictTypeResizeAllowed ty d d.ht0.used then
      (dictShrink ty canResize d d.ht0.used).map fun r => (r.1, true)
    else some (d, true)
  else some (d, false)

def _dictShrinkIfNeeded : Option (Dict S V) :=
  if 0 < d.pauseAutoResize then some d
  else (dictShrinkIfNeeded ty canResize d).map Prod.fst

/-- `_dictClear`: free the entries and the table. -/
def _dictClear (_ht : DictHt S V) : DictHt S V := DictHt.reset

/-- The callbacks made when a dict is emptied or released: a running rehash is reported as completed
and all buckets as gone. -/
def clearCallbacks (d : Dict S V) : List DictCallback :=
  (if dictIsRehashing d then [.rehashingCompleted (dicthtSize d.ht0.sizeExp)] else []) ++
    [.bucketChanged (-(dictBuckets d : ℤ))]

def dictEmpty (d : Dict S V) : Dict S V :=
  ⟨_dictClear d.ht0, _dictClear d.ht1, -1, 0, 0, d.trace ++ clearCallbacks d⟩

end

end RainCall
