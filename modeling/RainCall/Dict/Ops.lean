import RainCall.Dict.Basic

/-!
# The hash table `dict`: lookup, insertion and deletion

A `dictEntryLink` of the source is a pointer to the pointer that holds an entry: either a bucket of
a table or the `next` field of the previous entry of the chain. Here it is the position of the
entry, that is its table, its bucket and its place in the chain. The place after the last entry of
a chain is the link to the terminating `NULL`.
-/

namespace RainCall

/-- The two tables of a dict are numbered `0` and `1`. -/
instance neZeroTables : NeZero 2 := ⟨two_ne_zero⟩

structure DictEntryLink where
  /-- Table, `0` or `1`. -/
  table : Fin 2
  idx : ℕ
  pos : ℕ
deriving DecidableEq, Repr

section

variable {K S V : Type*}

/-- The table with the given number. -/
def Dict.ht (d : Dict S V) (t : Fin 2) : DictHt S V := if t = 0 then d.ht0 else d.ht1

def Dict.setHt (d : Dict S V) (t : Fin 2) (ht : DictHt S V) : Dict S V :=
  if t = 0 then { d with ht0 := ht } else { d with ht1 := ht }

/-- Replace the chain of one bucket. -/
def DictHt.setChain (ht : DictHt S V) (idx : ℕ) (c : List (DictEntry S V)) : DictHt S V :=
  { ht with table := ht.table.set idx c }

/-- Unlink the entry at position `pos` of bucket `idx` and count it out. -/
def DictHt.unlink (ht : DictHt S V) (idx pos : ℕ) : DictHt S V :=
  { ht with table := ht.table.set idx ((bucketAt ht.table idx).eraseIdx pos), used := ht.used - 1 }

/-- The entry a link points to. -/
def Dict.entryAt (d : Dict S V) (l : DictEntryLink) : Option (DictEntry S V) :=
  (bucketAt (d.ht l.table).table l.idx)[l.pos]?

def Dict.modifyAt (d : Dict S V) (l : DictEntryLink) (f : DictEntry S V → DictEntry S V) :
    Dict S V :=
  d.setHt l.table ((d.ht l.table).setChain l.idx
    ((bucketAt (d.ht l.table).table l.idx).modify l.pos f))

variable [DecidableEq K]

variable (ty : DictType K S) (canResize : DictResizeEnable) (d : Dict S V)

/-- Walk the chain of the bucket of `k` in table `t`. -/
def searchHt (k : K) (t : Fin 2) : Option DictEntryLink :=
  let idx := ty.bucketIdx (d.ht t).sizeExp k
  ((bucketAt (d.ht t).table idx).findIdx? fun e => decide (ty.entryKey e = k)).map (⟨t, idx, ·⟩)

/-- The loop over the two tables shared by the lookup functions: table 0 is skipped when its bucket
`idx0` is already rehashed, table 1 is searched only while rehashing. -/
def searchTables (idx0 : ℕ) (k : K) : Option DictEntryLink :=
  (if (idx0 : ℤ) < d.rehashidx then none else searchHt ty d k 0).or
    (if dictIsRehashing d then searchHt ty d k 1 else none)

/-- The table that receives new keys. -/
def insertTable : Fin 2 := if dictIsRehashing d then 1 else 0

/-- The link to the bucket of `k` in the table that receives new keys, `NULL` when the table is not
allocated. -/
def insertBucket (k : K) : Option DictEntryLink :=
  if (d.ht (insertTable d)).sizeExp = none then none
  else some ⟨insertTable d, ty.bucketIdx (d.ht (insertTable d)).sizeExp k, 0⟩

/-- `dictFindLinkInternal`: the link of `k`, and its bucket in the last table visited when the
caller asks for it. -/
def dictFindLinkInternal (k : K) (wantBucket : Bool) :
    Option (Dict S V × Option DictEntryLink × Option DictEntryLink) :=
  if wantBucket = false ∧ dictSize d = 0 then some (d, none, none)
  else
    let idx := ty.bucketIdx d.ht0.sizeExp k
    (_dictRehashStepIfNeeded ty canResize d idx).map fun d' =>
      match searchTables ty d' idx k with
      | some l => (d', some l, if wantBucket then some { l with pos := 0 } else none)
      | none => (d', none, if wantBucket then insertBucket ty d' k else none)

def dictFindLink (k : K) (wantBucket : Bool) :
    Option (Dict S V × Option DictEntryLink × Option DictEntryLink) :=
  if dictSize d = 0 then some (d, none, none)
  else dictFindLinkInternal ty canResize d k wantBucket

def dictFind (k : K) : Option (Dict S V × Option (DictEntry S V)) :=
  (dictFindLink ty canResize d k false).map fun r => (r.1, r.2.1.bind r.1.entryAt)

/-- Result of `dictFindLinkForInsert`: the entry that holds the key already, or the bucket for it.
-/
inductive InsertPosition
  | existing (l : DictEntryLink)
  | bucket (l : DictEntryLink)
deriving DecidableEq, Repr

/-- `dictFindLinkForInsert`. Reading a bucket of an unallocated table is a failure. -/
def dictFindLinkForInsert (k : K) : Option (Dict S V × InsertPosition) :=
  let idx := ty.bucketIdx d.ht0.sizeExp k
  (_dictRehashStepIfNeeded ty canResize d idx).bind fun d₁ =>
  (_dictExpandIfNeeded ty canResize d₁).bind fun d₂ =>
    match searchTables ty d₂ idx k with
    | some l => some (d₂, .existing l)
    | none => (insertBucket ty d₂ k).map fun l => (d₂, .bucket l)

/-- `dictInsertKeyAtLink`, with its assertion that the bucket lies in the right table. -/
def dictInsertKeyAtLink (e : DictEntry S V) (l : DictEntryLink) : Option (Dict S V) :=
  let t := insertTable d
  if l.table = t ∧ l.pos = 0 ∧ (d.ht t).sizeExp ≠ none ∧
      l.idx ≤ dicthtSizeMask (d.ht t).sizeExp then
    some (d.setHt t ((d.ht t).push l.idx e))
  else none

/-- `dictAddRaw`. The new entry is returned to the caller, who fills its value: the value is a
parameter here. When the key exists already, the link of its entry is returned instead. -/
def dictAddRaw (e : DictEntry S V) : Option (Dict S V × Option DictEntryLink) :=
  (dictFindLinkForInsert ty canResize d (ty.entryKey e)).bind fun
    | (d', .existing l) => some (d', some l)
    | (d', .bucket l) => (dictInsertKeyAtLink d' e l).map (·, none)

/-- `dictAdd`. The Boolean result is `DICT_OK`. -/
def dictAdd (e : DictEntry S V) : Option (Dict S V × Bool) :=
  (dictAddRaw ty canResize d e).map fun r => (r.1, r.2.isNone)

/-- `dictReplace`. Returns whether the key was added. -/
def dictReplace (e : DictEntry S V) : Option (Dict S V × Bool) :=
  (dictAddRaw ty canResize d e).map fun
    | (d', none) => (d', true)
    | (d', some l) => (d'.modifyAt l fun old => { old with val := e.val }, false)

/-- `dictGenericDelete`, the common part of `dictDelete` and `dictUnlink`. Returns the unlinked
entry. -/
def dictGenericDelete (k : K) : Option (Dict S V × Option (DictEntry S V)) :=
  if dictSize d = 0 then some (d, none)
  else
    let idx := ty.bucketIdx d.ht0.sizeExp k
    (_dictRehashStepIfNeeded ty canResize d idx).bind fun d₁ =>
      match searchTables ty d₁ idx k with
      | none => some (d₁, none)
      | some l =>
        (_dictShrinkIfNeeded ty canResize
          (d₁.setHt l.table ((d₁.ht l.table).unlink l.idx l.pos))).map (·, d₁.entryAt l)

/-- `dictDelete`. The Boolean result is `DICT_OK`. -/
def dictDelete (k : K) : Option (Dict S V × Bool) :=
  (dictGenericDelete ty canResize d k).map fun r => (r.1, r.2.isSome)

def dictUnlink (k : K) : Option (Dict S V × Option (DictEntry S V)) :=
  dictGenericDelete ty canResize d k

/-- `dictTwoPhaseUnlinkFind`. Rehashing is paused when the key is found. -/
def dictTwoPhaseUnlinkFind (k : K) : Option (Dict S V × Option DictEntryLink) :=
  if dictSize d = 0 then some (d, none)
  else
    (if dictIsRehashing d then _dictRehashStep ty canResize d else some d).map fun d₁ =>
      match searchTables ty d₁ (ty.bucketIdx d₁.ht0.sizeExp k) k with
      | none => (d₁, none)
      | some l => ({ d₁ with pauserehash := d₁.pauserehash + 1 }, some l)

def dictTwoPhaseUnlinkFree (plink : Option DictEntryLink) : Option (Dict S V) :=
  match plink with
  | none => some d
  | some l =>
    if (d.entryAt l).isNone then some d
    else
      (_dictShrinkIfNeeded ty canResize
        (d.setHt l.table ((d.ht l.table).unlink l.idx l.pos))).map fun d' =>
          { d' with pauserehash := d'.pauserehash - 1 }

/-- `dictSetKeyAtLink` with `newItem` set. The link of the caller is used unless the tables were
reallocated to make room for the new key. -/
def dictSetNewKeyAtLink (e : DictEntry S V) (link : Option DictEntryLink) : Option (Dict S V) :=
  (dictExpandIfNeeded ty canResize d).bind fun r =>
    let d₁ := r.1
    match link with
    | some l =>
      if d₁.ht0.sizeExp = d.ht0.sizeExp ∧ d₁.ht1.sizeExp = d.ht1.sizeExp then
        dictInsertKeyAtLink d₁ e l
      else relookup d₁
    | none => relookup d₁
where
  /-- Look the bucket up again, with the assertions that there is one and the key is new. -/
  relookup (d₁ : Dict S V) : Option (Dict S V) :=
    (dictFindLinkInternal ty canResize d₁ (ty.entryKey e) true).bind fun
      | (d₂, none, some bucket) => dictInsertKeyAtLink d₂ e bucket
      | _ => none

/-- `dictSetKeyAtLink` without `newItem`, at the link of an existing entry: set its stored key. -/
def dictSetKeyAtExistingLink (s : S) (l : DictEntryLink) : Dict S V :=
  d.modifyAt l fun old => { old with key := s }

/-- The protocol of `dictFindLink` and `dictSetKeyAtLink`: look up the key of a stored key object,
then set the key of the entry found, or add an entry at the bucket found. -/
def dictFindLinkAndSet (e : DictEntry S V) : Option (Dict S V) :=
  (dictFindLink ty canResize d (ty.entryKey e) true).bind fun
    | (d', some l, _) => some (dictSetKeyAtExistingLink d' e.key l)
    | (d', none, bucket) => dictSetNewKeyAtLink ty canResize d' e bucket

/-- The protocol of `dictTwoPhaseUnlinkFind` and `dictTwoPhaseUnlinkFree`. -/
def dictTwoPhaseUnlink (k : K) : Option (Dict S V × Bool) :=
  (dictTwoPhaseUnlinkFind ty canResize d k).bind fun r =>
    (dictTwoPhaseUnlinkFree ty canResize r.1 r.2).map (·, r.2.isSome)

end

end RainCall
