import RainCall.Dict.Scan
import RainCall.Kvstore.Fwtree

/-!
# The key-value store `kvstore`

A kvstore is an array of `2 ^ num_dicts_bits` dicts, some of them possibly `NULL`, with counters
over all of them. Keys are counted by `cumulativeKeyCountAdd` after each insertion and deletion;
buckets and running rehashes are counted by the callbacks the dicts make. A stored dict has no
callbacks pending: `Kvstore.put` applies the ones an operation made.
-/

namespace RainCall

/-- `struct _kvstore`; the list of rehashing dicts and the metadata are left out. -/
structure Kvstore (S V : Type*) where
  /-- The flag `KVSTORE_ALLOCATE_DICTS_ON_DEMAND`. -/
  allocateDictsOnDemand : Bool
  freeEmptyDicts : Bool
  dicts : List (Option (Dict S V))
  numDictsBits : ℕ
  resizeCursor : ℕ
  allocatedDicts : ℤ
  nonEmptyDicts : ℤ
  keyCount : ℤ
  bucketCount : ℤ
  dictSizes : Option FenwickTree
  overheadHashtableRehashing : ℤ
deriving DecidableEq, Repr

/-- What an operation finds outside: the setting `dict_can_resize`, and the answers of the callback
`canFreeDict` (always `true` when there is none). -/
structure KvstoreEnv where
  canResize : DictResizeEnable
  canFreeDict : ℕ → Bool

section Model

variable {K S V : Type*}

/-- The field `num_dicts`. -/
def Kvstore.numDicts (kvs : Kvstore S V) : ℕ := 2 ^ kvs.numDictsBits

def kvstoreGetDict (kvs : Kvstore S V) (didx : ℕ) : Option (Dict S V) := kvs.dicts.getD didx none

def kvstoreDictSize (kvs : Kvstore S V) (didx : ℕ) : ℕ :=
  ((kvstoreGetDict kvs didx).map dictSize).getD 0

/-- `kvstoreDictRehashingStarted`, `kvstoreDictRehashingCompleted` and `kvstoreDictBucketChanged` -/
def Kvstore.callback (kvs : Kvstore S V) : DictCallback → Kvstore S V
  | .rehashingStarted oldSize =>
    { kvs with overheadHashtableRehashing := kvs.overheadHashtableRehashing + oldSize }
  | .rehashingCompleted oldSize =>
    { kvs with overheadHashtableRehashing := kvs.overheadHashtableRehashing - oldSize }
  | .bucketChanged delta => { kvs with bucketCount := kvs.bucketCount + delta }

/-- Replace a pointer of the array. -/
def Kvstore.setDict (kvs : Kvstore S V) (didx : ℕ) (d : Option (Dict S V)) : Kvstore S V :=
  { kvs with dicts := kvs.dicts.set didx d }

/-- The kvstore after an operation changed a dict to `d`, with the callbacks it made. -/
def Kvstore.put (kvs : Kvstore S V) (didx : ℕ) (d : Dict S V) : Kvstore S V :=
  (d.trace.foldl Kvstore.callback kvs).setDict didx (some { d with trace := [] })

/-- `cumulativeKeyCountAdd`; `none` when the dict is `NULL` or an assertion of the tree fails. -/
def cumulativeKeyCountAdd (kvs : Kvstore S V) (didx : ℕ) (delta : ℤ) : Option (Kvstore S V) :=
  (kvstoreGetDict kvs didx).bind fun d =>
    let dsize := dictSize d
    let nonEmptyDictsDelta := if dsize = 1 ∧ 0 < delta then 1 else if dsize = 0 then -1 else 0
    let kvs := { kvs with
      keyCount := kvs.keyCount + delta
      nonEmptyDicts := kvs.nonEmptyDicts + nonEmptyDictsDelta }
    if kvs.numDicts = 1 then some kvs
    else
      kvs.dictSizes.bind fun ft =>
        (fwTreeUpdate ft didx delta).map fun ft => { kvs with dictSizes := some ft }

def createDictIfNeeded (kvs : Kvstore S V) (didx : ℕ) : Kvstore S V :=
  match kvstoreGetDict kvs didx with
  | some _ => kvs
  | none =>
    { kvs.setDict didx (some dictCreate) with allocatedDicts := kvs.allocatedDicts + 1 }

/-- `freeDictIfNeeded`; the callbacks are those of `dictRelease`. -/
def freeDictIfNeeded (env : KvstoreEnv) (kvs : Kvstore S V) (didx : ℕ) : Kvstore S V :=
  match kvstoreGetDict kvs didx with
  | none => kvs
  | some d =>
    if kvs.freeEmptyDicts = false ∨ dictSize d ≠ 0 ∨ 0 < d.pauserehash ∨
      env.canFreeDict didx = false then
      kvs
    else
      let kvs := (clearCallbacks d).foldl Kvstore.callback kvs
      { kvs.setDict didx none with allocatedDicts := kvs.allocatedDicts - 1 }

def kvstoreCreate (numDictsBits : ℕ) (allocateDictsOnDemand freeEmptyDicts : Bool) :
    Kvstore S V where
  allocateDictsOnDemand := allocateDictsOnDemand
  freeEmptyDicts := freeEmptyDicts
  dicts := List.replicate (2 ^ numDictsBits)
    (if allocateDictsOnDemand then none else some dictCreate)
  numDictsBits := numDictsBits
  resizeCursor := 0
  allocatedDicts := if allocateDictsOnDemand then 0 else 2 ^ numDictsBits
  nonEmptyDicts := 0
  keyCount := 0
  bucketCount := 0
  dictSizes := if 1 < 2 ^ numDictsBits then some (fwTreeCreate numDictsBits) else none
  overheadHashtableRehashing := 0

/-- One iteration of the loop of `kvstoreEmpty`. -/
def kvstoreEmptyDict (env : KvstoreEnv) (kvs : Kvstore S V) (didx : ℕ) : Kvstore S V :=
  match kvstoreGetDict kvs didx with
  | none => kvs
  | some d => freeDictIfNeeded env (kvs.put didx (dictEmpty d)) didx

def kvstoreEmpty (env : KvstoreEnv) (kvs : Kvstore S V) : Kvstore S V :=
  { (List.range kvs.numDicts).foldl (kvstoreEmptyDict env) kvs with
    keyCount := 0
    nonEmptyDicts := 0
    resizeCursor := 0
    bucketCount := 0
    dictSizes := kvs.dictSizes.map fwTreeClear
    overheadHashtableRehashing := 0 }

/-- `kvstoreMoveDict`, with its assertions; the result is the source and the destination. -/
def kvstoreMoveDict (kvs dst : Kvstore S V) (didx : ℕ) : Option (Kvstore S V × Kvstore S V) :=
  if kvs.numDicts ≤ didx ∨ kvs.numDicts ≠ dst.numDicts ∨ (kvstoreGetDict dst didx).isSome then none
  else
    match kvstoreGetDict kvs didx with
    | none => some (kvs, dst)
    | some d =>
      -- adjust the source
      (cumulativeKeyCountAdd { kvs with allocatedDicts := kvs.allocatedDicts - 1 } didx
        (-(dictSize d : ℤ))).bind fun kvs =>
      let kvs := kvs.callback (.bucketChanged (-(dictBuckets d : ℤ)))
      let kvs := if dictIsRehashing d then
          kvs.callback (.rehashingCompleted (dicthtSize d.ht0.sizeExp)) else kvs
      let kvs := kvs.setDict didx none
      let kvs := if kvs.allocateDictsOnDemand || kvs.freeEmptyDicts then kvs
        else createDictIfNeeded kvs didx
      -- move the dict to the destination
      let dst := { dst.setDict didx (some d) with allocatedDicts := dst.allocatedDicts + 1 }
      (cumulativeKeyCountAdd dst didx (dictSize d)).map fun dst =>
      let dst := dst.callback (.bucketChanged (dictBuckets d))
      let dst := if dictIsRehashing d then
          dst.callback (.rehashingStarted (dicthtSize d.ht0.sizeExp)) else dst
      (kvs, dst)

variable [DecidableEq K]

variable (ty : DictType K S) (env : KvstoreEnv) (kvs : Kvstore S V) (didx : ℕ)

/-- `kvstoreDictAddRaw`; the Boolean result says that an entry was added. -/
def kvstoreDictAddRaw (e : DictEntry S V) : Option (Kvstore S V × Bool) :=
  let kvs := createDictIfNeeded kvs didx
  (kvstoreGetDict kvs didx).bind fun d =>
  (dictAddRaw ty env.canResize d e).bind fun r =>
  let kvs := kvs.put didx r.1
  if r.2.isNone then (cumulativeKeyCountAdd kvs didx 1).map (·, true) else some (kvs, false)

/-- `kvstoreDictSetAtLink` with `newItem` set. -/
def kvstoreDictSetNewAtLink (e : DictEntry S V) (link : Option DictEntryLink) :
    Option (Kvstore S V) :=
  let kvs := createDictIfNeeded kvs didx
  (kvstoreGetDict kvs didx).bind fun d =>
  (dictSetNewKeyAtLink ty env.canResize d e link).bind fun d =>
  cumulativeKeyCountAdd (kvs.put didx d) didx 1

/-- The protocol of `kvstoreDictFindLink` and `kvstoreDictSetAtLink`: set the key of the entry
found, or add an entry at the bucket found. -/
def kvstoreDictFindLinkAndSet (e : DictEntry S V) : Option (Kvstore S V) :=
  match kvstoreGetDict kvs didx with
  | none => kvstoreDictSetNewAtLink ty env kvs didx e none
  | some d =>
    (dictFindLink ty env.canResize d (ty.entryKey e) true).bind fun
      | (d', some l, _) => some (kvs.put didx (dictSetKeyAtExistingLink d' e.key l))
      | (d', none, bucket) => kvstoreDictSetNewAtLink ty env (kvs.put didx d') didx e bucket

/-- `kvstoreDictDelete`; the Boolean result is `DICT_OK`. -/
def kvstoreDictDelete (k : K) : Option (Kvstore S V × Bool) :=
  match kvstoreGetDict kvs didx with
  | none => some (kvs, false)
  | some d =>
    (dictDelete ty env.canResize d k).bind fun r =>
    let kvs := kvs.put didx r.1
    if r.2 then
      (cumulativeKeyCountAdd kvs didx (-1)).map fun kvs => (freeDictIfNeeded env kvs didx, true)
    else some (kvs, false)

def kvstoreDictTwoPhaseUnlinkFree (link : DictEntryLink) : Option (Kvstore S V) :=
  (kvstoreGetDict kvs didx).bind fun d =>
  (dictTwoPhaseUnlinkFree ty env.canResize d (some link)).bind fun d =>
  (cumulativeKeyCountAdd (kvs.put didx d) didx (-1)).map fun kvs => freeDictIfNeeded env kvs didx

/-- The protocol of `kvstoreDictTwoPhaseUnlinkFind` and `kvstoreDictTwoPhaseUnlinkFree`. -/
def kvstoreDictTwoPhaseUnlink (k : K) : Option (Kvstore S V) :=
  match kvstoreGetDict kvs didx with
  | none => some kvs
  | some d =>
    (dictTwoPhaseUnlinkFind ty env.canResize d k).bind fun
      | (d', none) => some (kvs.put didx d')
      | (d', some link) => kvstoreDictTwoPhaseUnlinkFree ty env (kvs.put didx d') didx link

def kvstoreDictFind (k : K) : Option (Kvstore S V × Option (DictEntry S V)) :=
  match kvstoreGetDict kvs didx with
  | none => some (kvs, none)
  | some d => (dictFind ty env.canResize d k).map fun r => (kvs.put didx r.1, r.2)

omit [DecidableEq K] in
def kvstoreDictExpand (size : ℕ) : Option (Kvstore S V × Bool) :=
  let kvs := createDictIfNeeded kvs didx
  (kvstoreGetDict kvs didx).bind fun d =>
  (dictExpand ty env.canResize d size).map fun r => (kvs.put didx r.1, r.2)

/-- The resizing of one dict by `kvstoreTryResizeDicts`: expand it unless `dictShrinkIfNeeded` says
that nothing is left to do. -/
def tryResizeDict (d : Dict S V) : Option (Dict S V) :=
  (dictShrinkIfNeeded ty env.canResize d).bind fun r =>
  if r.2 then some r.1 else (dictExpandIfNeeded ty env.canResize r.1).map Prod.fst

/-- The loop of `kvstoreTryResizeDicts`. -/
def kvstoreTryResizeLoop (ty : DictType K S) (env : KvstoreEnv) :
    ℕ → Kvstore S V → Option (Kvstore S V)
  | 0, kvs => some kvs
  | limit + 1, kvs =>
    let didx := kvs.resizeCursor
    (match kvstoreGetDict kvs didx with
      | none => some kvs
      | some d => (tryResizeDict ty env d).map (kvs.put didx)).bind fun kvs =>
    kvstoreTryResizeLoop ty env limit { kvs with resizeCursor := (didx + 1) % kvs.numDicts }

def kvstoreTryResizeDicts (limit : ℕ) : Option (Kvstore S V) :=
  kvstoreTryResizeLoop ty env (min limit kvs.numDicts) kvs

/-- `n` buckets of rehashing in one dict, of which `kvstoreIncrementallyRehash` does as many as its
time allows in the dicts of its list. -/
def kvstoreDictRehash (n : ℕ) : Option (Kvstore S V) :=
  match kvstoreGetDict kvs didx with
  | none => some kvs
  | some d => (dictRehash ty env.canResize d n).map fun r => kvs.put didx r.1

/-- An operation on a kvstore. -/
inductive KvstoreOp (K S V : Type*)
  | addRaw (didx : ℕ) (e : DictEntry S V)
  | findLinkAndSet (didx : ℕ) (e : DictEntry S V)
  | delete (didx : ℕ) (k : K)
  | twoPhaseUnlink (didx : ℕ) (k : K)
  | find (didx : ℕ) (k : K)
  | expand (didx : ℕ) (size : ℕ)
  | tryResizeDicts (limit : ℕ)
  | rehash (didx : ℕ) (n : ℕ)
  | empty
  /-- `kvstoreGetDictMeta` with `createIfNeeded` set. -/
  | createDict (didx : ℕ)
  | freeDict (didx : ℕ)
deriving DecidableEq, Repr

def kvstoreStep : KvstoreEnv × KvstoreOp K S V → Option (Kvstore S V)
  | (env, .addRaw didx e) => (kvstoreDictAddRaw ty env kvs didx e).map Prod.fst
  | (env, .findLinkAndSet didx e) => kvstoreDictFindLinkAndSet ty env kvs didx e
  | (env, .delete didx k) => (kvstoreDictDelete ty env kvs didx k).map Prod.fst
  | (env, .twoPhaseUnlink didx k) => kvstoreDictTwoPhaseUnlink ty env kvs didx k
  | (env, .find didx k) => (kvstoreDictFind ty env kvs didx k).map Prod.fst
  | (env, .expand didx size) => (kvstoreDictExpand ty env kvs didx size).map Prod.fst
  | (env, .tryResizeDicts limit) => kvstoreTryResizeDicts ty env kvs limit
  | (env, .rehash didx n) => kvstoreDictRehash ty env kvs didx n
  | (env, .empty) => some (kvstoreEmpty env kvs)
  | (_, .createDict didx) => some (createDictIfNeeded kvs didx)
  | (env, .freeDict didx) => some (freeDictIfNeeded env kvs didx)

omit [DecidableEq K] in
def KvstoreOp.didx? : KvstoreOp K S V → Option ℕ
  | .addRaw didx _ | .findLinkAndSet didx _ | .delete didx _ | .twoPhaseUnlink didx _ | .find didx _
  | .expand didx _ | .rehash didx _ | .createDict didx | .freeDict didx => some didx
  | .tryResizeDicts _ | .empty => none

end Model

end RainCall
