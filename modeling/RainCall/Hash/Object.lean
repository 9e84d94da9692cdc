import RainCall.Listpack.Api

/-!
# Hash objects

A hash is stored in one of three ways: as a listpack of fields and values, as a listpack of fields,
values and expiry times sorted by expiry time, or as a dict of entries. In the last case every entry
is an allocation of its own that may carry expiry metadata, and the entries with an expiry time are
linked into the private ebuckets of the hash.

This file models the `hashType*` functions of `t_hash.c` and the entries of `entry.c`. The dict is
the list of the entries it holds, the ebuckets are the list of the entries linked into them, and
an entry is a pointer into a heap, so that a reallocated entry that is still linked would show. The
result `none` is a failed assertion, a panic or an access to memory that is not allocated.
-/

namespace RainCall

/-! ### Entries -/

/-- `EB_EXPIRE_TIME_MAX`; the number after it stands for no expiry time. -/
def ebExpireTimeMax : ℕ := 2 ^ 48 - 1

instance neZeroTimes : NeZero (2 ^ 48) := ⟨by decide⟩

/-- A field with its value and, if there is room for it, the expiry metadata. -/
structure HashEntry where
  field : Bytes
  value : Bytes
  /-- The allocation has room for expiry metadata. -/
  hasExpiry : Bool
  /-- The expiry metadata holds no time. -/
  trash : Bool
  /-- The 48 bits of `ExpireMeta`. -/
  expireTime : Fin (2 ^ 48)
deriving DecidableEq, Repr

/-- `entryGetExpiry`; `none` is `EB_EXPIRE_TIME_INVALID`. -/
def HashEntry.expiry (e : HashEntry) : Option ℕ :=
  if e.hasExpiry && !e.trash then some e.expireTime else none

/-- The metadata of an entry holds no time that is too large. -/
lemma HashEntry.expiry_le {e : HashEntry} {t : ℕ} (h : e.expiry = some t) :
    t ≤ ebExpireTimeMax := by
  simp only [HashEntry.expiry, Option.ite_none_right_eq_some, Option.some.injEq] at h
  rw [ebExpireTimeMax]
  omega

/-- What the server configuration and the memory layout decide. -/
structure HashConfig where
  maxListpackEntries : ℕ
  maxListpackValue : ℕ
  lpBytes : List LpEntry → ℕ
  /-- `needsNewAlloc`: the new value does not fit into the allocation of the entry. -/
  needsNewAlloc : HashEntry → Bytes → Bool

/-- The dict of a hash with its private ebuckets. -/
structure HashTable where
  heap : ℕ → Option HashEntry
  brk : ℕ
  /-- The entries in the dict. -/
  dict : List ℕ
  /-- The entries in the ebuckets; `none` if the dict has no expiry metadata. -/
  hfe : Option (List ℕ)

namespace HashTable

/-- An empty dict, with or without expiry metadata. -/
def create (withHfe : Bool) : HashTable :=
  { heap := fun _ => none, brk := 0, dict := [], hfe := if withHfe then some [] else none }

variable (h : HashTable)

/-- `dictFind` -/
def find (field : Bytes) : Option ℕ :=
  h.dict.find? fun p => (h.heap p).any (·.field == field)

/-- Store an entry at an address. -/
def store (p : ℕ) (e : HashEntry) : HashTable :=
  { h with heap := Function.update h.heap p (some e) }

/-- `entryCreate`: the metadata of a new entry is marked as trash until it is added to the
ebuckets. -/
def entryCreate (field value : Bytes) (hasExpiry : Bool) : HashTable × ℕ :=
  ({ h with
      heap := Function.update h.heap h.brk (some ⟨field, value, hasExpiry, true, 0⟩)
      brk := h.brk + 1 }, h.brk)

def entryFree (p : ℕ) : HashTable :=
  { h with heap := Function.update h.heap p none }

/-- `entryUpdate`: change the value, if one is given, and add or remove the room for expiry
metadata. The entry may move. -/
def entryUpdate (cfg : HashConfig) (h : HashTable) (p : ℕ) (value : Option Bytes)
    (hasExpiry : Bool) : Option (HashTable × ℕ) := do
  let old ← h.heap p
  let expiryAddRemove := old.hasExpiry != hasExpiry
  if value.isNone && !expiryAddRemove then
    return (h, p)
  let newValue := value.getD old.value
  if expiryAddRemove || (value.isSome && cfg.needsNewAlloc old newValue) then
    let r := h.entryCreate old.field newValue hasExpiry
    return (r.1.entryFree p, r.2)
  else
    return (h.store p { old with value := newValue }, p)

/-- `ebAdd`: link an entry into the ebuckets and write its expiry time. A time above
`EB_EXPIRE_TIME_MAX` fails the assertion. -/
def ebAdd (p expireTime : ℕ) : Option HashTable := do
  let b ← h.hfe
  let e ← h.heap p
  if e.hasExpiry && !b.contains p && expireTime ≤ ebExpireTimeMax then
    return { h.store p { e with trash := false, expireTime := .ofNat _ expireTime } with
      hfe := some (p :: b) }
  else none

/-- `ebRemove`: unlink an entry and mark its metadata as trash. -/
def ebRemove (p : ℕ) : Option HashTable := do
  let b ← h.hfe
  let e ← h.heap p
  if b.contains p then
    return { h.store p { e with trash := true } with hfe := some (b.erase p) }
  else none

/-- `dictSetKeyAtLink` for an existing entry. -/
def setKeyAtLink (p p' : ℕ) : HashTable :=
  { h with dict := h.dict.map fun q => if q = p then p' else q }

/-- `hfieldPersist`: remove the expiry time of a field. -/
def hfieldPersist (p : ℕ) : Option HashTable := do
  let e ← h.heap p
  if e.expiry.isNone then return h else h.ebRemove p

/-- `dictDelete` with `dictEntryDestructor`. -/
def delete (field : Bytes) : Option (HashTable × Bool) :=
  match h.find field with
  | none => some (h, false)
  | some p => do
    let h := { h with dict := h.dict.erase p }
    let e ← h.heap p
    let h ← if e.expiry.isSome then h.ebRemove p else some h
    return (h.entryFree p, true)

/-- `dictAdd` of a new entry; it fails if the field exists. -/
def add (field value : Bytes) (hasExpiry : Bool) : Option (HashTable × ℕ) :=
  match h.find field with
  | some _ => none
  | none =>
    let r := h.entryCreate field value hasExpiry
    some ({ r.1 with dict := r.1.dict ++ [r.2] }, r.2)

end HashTable

inductive HashObj
  | listpack (lp : List LpEntry)
  | listpackEx (lp : List LpEntry)
  | ht (h : HashTable)

def createHashObject : HashObj := .listpack []

/-- The object is encoded as a dict. -/
def HashObj.isHT : HashObj → Bool
  | .ht _ => true
  | _ => false

def hashTypeLength : HashObj → ℕ
  | .listpack lp => lp.length / 2
  | .listpackEx lp => lp.length / 3
  | .ht h => h.dict.length

/-! ### Listpacks sorted by expiry time -/

/-- The arguments of `cbFindInListpack`. All its uses search without a limit. -/
structure LpFingArgs where
  expireTime : ℕ
  /-- The first tuple with a time that is not smaller. -/
  p : Option ℕ
  expired : ℕ
  index : ℕ
  fptr : ℕ
deriving DecidableEq, Repr

/-- The callback `cbFindInListpack`; the state `none` is a failed assertion. -/
def cbFindInListpack : Option LpFingArgs → ℕ → LpEntry → Option LpFingArgs × Bool
  | none, _, _ => (none, true)
  | some r, p, e =>
    let r := { r with index := r.index + 1 }
    if r.index % 3 = 1 then (some { r with fptr := p }, false)
    else if r.index % 3 = 0 then
      match e.integerValue with
      | none => (none, true)
      | some n =>
        if n = 0 ∨ r.expireTime ≤ n then (some { r with p := some r.fptr }, true)
        else (some { r with expired := r.expired + 1 }, false)
    else (some r, false)

/-- `listpackExAddInternal`: a tuple without an expiry time goes to the end, another one before the
first tuple that does not expire earlier. -/
def listpackExAddInternal (lp : List LpEntry) (field value : Bytes) (expireAt : ℕ) :
    Option (List LpEntry) :=
  let ent : List LpEntry := [.str field, .str value, .int expireAt]
  if expireAt = 0 then some (lpBatchAppend lp ent)
  else do
    let r ← (lpFindCb cbFindInListpack 0 lp 0 0 (some ⟨expireAt, none, 0, 0, 0⟩)).1
    match r.p with
    | some p => return lpBatchInsert lp p ent
    | none => return lpBatchAppend lp ent

/-- `listpackExUpdateExpiry`: delete the tuple at `fptr` and insert it at its new place. -/
def listpackExUpdateExpiry (lp : List LpEntry) (field : Bytes) (fptr vptr expireAt : ℕ) :
    Option (List LpEntry) := do
  let value ← lp[vptr]?
  listpackExAddInternal (lpDeleteRangeWithEntry lp fptr 3) field value.text expireAt

/-! ### Conversion -/

/-- Append `HASH_LP_NO_TTL` to each pair. -/
def appendNoTtl : List LpEntry → Option (List LpEntry)
  | [] => some []
  | [_] => none
  | f :: v :: lp => do
    let lp' ← appendNoTtl lp
    return f :: v :: .int 0 :: lp'

/-- Add the pairs of a listpack to a dict. -/
def addPairs : List LpEntry → HashTable → Option HashTable
  | [], h => some h
  | [_], _ => none
  | f :: v :: lp, h => do
    let r ← h.add f.text v.text false
    addPairs lp r.1

/-- Add the tuples of a listpack to a dict and its ebuckets. -/
def addTriples : List LpEntry → HashTable → Option HashTable
  | [], h => some h
  | f :: v :: t :: lp, h => do
    let n ← t.integerValue
    let r ← h.add f.text v.text (n != 0)
    let h ← if n = 0 then some r.1 else r.1.ebAdd r.2 n
    addTriples lp h
  | _, _ => none

/-- The encodings of a hash. -/
inductive HashEncoding
  | listpack
  | listpackEx
  | ht
deriving DecidableEq, Repr

/-- `hashTypeConvert` with `hashTypeConvertListpack` and `hashTypeConvertListpackEx`. -/
def hashTypeConvert : HashObj → HashEncoding → Option HashObj
  | .listpack lp, .listpack => some (.listpack lp)
  | .listpack lp, .listpackEx => .listpackEx <$> appendNoTtl lp
  | .listpack lp, .ht => .ht <$> addPairs lp (HashTable.create false)
  | .listpackEx lp, .listpackEx => some (.listpackEx lp)
  | .listpackEx lp, .ht => .ht <$> addTriples lp (HashTable.create true)
  | .listpackEx _, .listpack => none
  | .ht _, _ => none

def HashObj.lp? : HashObj → Option (List LpEntry)
  | .listpack lp => some lp
  | .listpackEx lp => some lp
  | .ht _ => none

/-- `hashTypeTryConversion` for the arguments `args`: `LISTPACK_MAX_SAFETY_LIMIT` bounds the bytes
of a listpack. -/
def hashTypeTryConversion (cfg : HashConfig) (o : HashObj) (args : List Bytes) :
    Option HashObj :=
  match o.lp? with
  | none => some o
  | some lp =>
    if args.length / 2 > cfg.maxListpackEntries then hashTypeConvert o .ht
    else if args.any fun a => decide (a.length > cfg.maxListpackValue) then hashTypeConvert o .ht
    else if cfg.lpBytes lp + (args.map List.length).sum > 2 ^ 30 then hashTypeConvert o .ht
    else some o

/-! ### Updates -/

/-- The branch of `hashTypeSet` for a listpack of pairs. -/
def setInPairs (lp : List LpEntry) (field value : Bytes) : Option (List LpEntry × Bool) :=
  match lpFind lp field 1 with
  | some fptr => do
    let vptr ← lpNext lp fptr
    return (lpReplace lp vptr value, true)
  | none => some (lpBatchAppend lp [.str field, .str value], false)

/-- The branch of `hashTypeSet` for a listpack of triples. -/
def setInTriples (lp : List LpEntry) (field value : Bytes) (keepTtl : Bool) :
    Option (List LpEntry × Bool) :=
  match lpFind lp field 2 with
  | some fptr => do
    let vptr ← lpNext lp fptr
    let lp := lpReplace lp vptr value
    let tptr ← lpNext lp vptr
    let t ← lp[tptr]?
    let expireTime ← t.integerValue
    if keepTtl || expireTime == 0 then return (lp, true)
    else
      let lp ← listpackExUpdateExpiry lp field fptr vptr 0
      return (lp, true)
  | none => do
    let lp ← listpackExAddInternal lp field value 0
    return (lp, false)

/-- The branch of `hashTypeSet` for a dict. -/
def setInTable (cfg : HashConfig) (h : HashTable) (field value : Bytes) (keepTtl : Bool) :
    Option (HashTable × Bool) :=
  match h.find field with
  | none => do
    let r ← h.add field value false
    return (r.1, false)
  | some p => do
    let old ← h.heap p
    let h ← h.hfieldPersist p
    -- The expiry time to restore once the entry is in its final place.
    let newExpireAt := if keepTtl then old.expiry else none
    let r ← h.entryUpdate cfg p (some value) newExpireAt.isSome
    let h := if r.2 = p then r.1 else r.1.setKeyAtLink p r.2
    let h ← match newExpireAt with
      | some t => h.ebAdd r.2 t
      | none => some h
    return (h, true)

/-- The check at the beginning of `hashTypeSet`: an item that is too long for a listpack. -/
def convertForItem (cfg : HashConfig) (o : HashObj) (field value : Bytes) : Option HashObj :=
  if o.isHT then some o
  else if field.length > cfg.maxListpackValue ∨ value.length > cfg.maxListpackValue then
    hashTypeConvert o .ht
  else some o

/-- The check behind an update of a listpack: too many fields. -/
def convertForLength (cfg : HashConfig) (o : HashObj) : Option HashObj :=
  if hashTypeLength o > cfg.maxListpackEntries then hashTypeConvert o .ht else some o

/-- `hashTypeSet`: add or overwrite a field; the result says whether the field existed. -/
def hashTypeSet (cfg : HashConfig) (o : HashObj) (field value : Bytes) (keepTtl : Bool) :
    Option (HashObj × Bool) := do
  match ← convertForItem cfg o field value with
  | .listpack lp =>
    let r ← setInPairs lp field value
    let o ← convertForLength cfg (.listpack r.1)
    return (o, r.2)
  | .listpackEx lp =>
    let r ← setInTriples lp field value keepTtl
    let o ← convertForLength cfg (.listpackEx r.1)
    return (o, r.2)
  | .ht h =>
    let r ← setInTable cfg h field value keepTtl
    return (.ht r.1, r.2)

/-- `hashTypeDelete`: the result says whether the field existed. -/
def hashTypeDelete (o : HashObj) (field : Bytes) : Option (HashObj × Bool) :=
  match o with
  | .listpack lp =>
    match lpFind lp field 1 with
    | some fptr => some (.listpack (lpDeleteRangeWithEntry lp fptr 2), true)
    | none => some (.listpack lp, false)
  | .listpackEx lp =>
    match lpFind lp field 2 with
    | some fptr => some (.listpackEx (lpDeleteRangeWithEntry lp fptr 3), true)
    | none => some (.listpackEx lp, false)
  | .ht h => do
    let r ← h.delete field
    return (.ht r.1, r.2)

/-! ### Expiry times -/

/-- The time of a command and who executes it. -/
structure HashCtx where
  /-- `commandTimeSnapshot` -/
  now : ℕ
  /-- The command comes from a client of a master, and not from the master of a replica. -/
  isMaster : Bool
deriving DecidableEq, Repr

/-- `checkAlreadyExpired` -/
def HashCtx.alreadyExpired (ctx : HashCtx) (time : ℕ) : Bool :=
  ctx.isMaster && decide (time ≤ ctx.now)

/-- The condition of an update of an expiry time. -/
inductive ExpireSetCond
  | always
  | nx
  | xx
  | gt
  | lt
deriving DecidableEq, Repr

/-- Whether the condition allows to replace the expiry time `prev` by `expireAt`. -/
def ExpireSetCond.allows (cond : ExpireSetCond) (prev : Option ℕ) (expireAt : ℕ) : Bool :=
  match prev with
  | none => !(cond = .xx ∨ cond = .gt)
  | some p => !((cond = .gt ∧ expireAt ≤ p) ∨ (cond = .lt ∧ p ≤ expireAt) ∨ cond = .nx)

/-- The result of `hashTypeSetEx`. -/
inductive SetExRes
  | ok
  | noField
  | noConditionMet
  | deleted
deriving DecidableEq, Repr

/-- `hashTypeSetExInit`: take care that the hash supports expiration. -/
def hashTypeSetExInit (o : HashObj) : Option HashObj :=
  match o with
  | .listpack _ => hashTypeConvert o .listpackEx
  | .listpackEx _ => some o
  | .ht h => some (.ht { h with hfe := some (h.hfe.getD []) })

/-- `hashTypeSetExpiryListpack`; the time `none` asks to persist the field. -/
def hashTypeSetExpiryListpack (ctx : HashCtx) (lp : List LpEntry) (cond : ExpireSetCond)
    (field : Bytes) (fptr vptr tptr : ℕ) (expireAt : Option ℕ) :
    Option (List LpEntry × SetExRes) := do
  let t ← lp[tptr]?
  let expireTime ← t.integerValue
  let prevExpire := if expireTime = 0 then none else some expireTime
  match expireAt with
  | none =>
    if prevExpire.isNone then return (lp, .noConditionMet)
    else
      let lp ← listpackExUpdateExpiry lp field fptr vptr 0
      return (lp, .ok)
  | some expireAt =>
    if !cond.allows prevExpire expireAt then return (lp, .noConditionMet)
    else if ctx.alreadyExpired expireAt then
      let r ← hashTypeDelete (.listpackEx lp) field
      let lp ← r.1.lp?
      return (lp, .deleted)
    else
      let lp ← listpackExUpdateExpiry lp field fptr vptr expireAt
      return (lp, .ok)

/-- The entry gets expiry metadata that holds no time: it is reallocated with room for it, or its
old time is removed from the ebuckets. -/
def HashTable.makeRoomForExpiry (cfg : HashConfig) (h : HashTable) (p : ℕ) :
    Option (HashTable × ℕ) := do
  let old ← h.heap p
  if !old.hasExpiry then h.entryUpdate cfg p none true
  else
    let h ← h.hfieldPersist p
    return (h, p)

/-- `hashTypeSetExpiryHT`; the time `none` asks to persist the field. -/
def hashTypeSetExpiryHT (cfg : HashConfig) (ctx : HashCtx) (h : HashTable) (cond : ExpireSetCond)
    (field : Bytes) (expireAt : Option ℕ) : Option (HashTable × SetExRes) :=
  match h.find field with
  | none => some (h, .noField)
  | some p => do
    let old ← h.heap p
    match expireAt with
    | none =>
      if old.expiry.isNone then return (h, .noConditionMet)
      else
        let h ← h.hfieldPersist p
        return (h, .ok)
    | some expireAt =>
      if !cond.allows old.expiry expireAt then return (h, .noConditionMet)
      -- If the expiry time is the same, then there is nothing to do.
      else if old.expiry = some expireAt then return (h, .ok)
      else
        let r ← h.makeRoomForExpiry cfg p
        let h := r.1.setKeyAtLink p r.2
        if ctx.alreadyExpired expireAt then
          let r ← h.delete field
          return (r.1, .deleted)
        else
          let h ← h.ebAdd r.2 expireAt
          return (h, .ok)

/-- `hashTypeSetEx`: set or remove the expiry time of a field. -/
def hashTypeSetEx (cfg : HashConfig) (ctx : HashCtx) (o : HashObj) (cond : ExpireSetCond)
    (field : Bytes) (expireAt : Option ℕ) : Option (HashObj × SetExRes) :=
  match o with
  | .listpack _ => none
  | .listpackEx lp =>
    match lpFind lp field 2 with
    | none => some (.listpackEx lp, .noField)
    | some fptr => do
      let vptr ← lpNext lp fptr
      let tptr ← lpNext lp vptr
      let r ← hashTypeSetExpiryListpack ctx lp cond field fptr vptr tptr expireAt
      return (.listpackEx r.1, r.2)
  | .ht h => do
    let r ← hashTypeSetExpiryHT cfg ctx h cond field expireAt
    return (.ht r.1, r.2)

/-! ### Lookup -/

/-- `hashTypeGetFromListpack` and `hashTypeGetFromHashTable`: the value and the expiry time of a
field. -/
def hashTypeGet (o : HashObj) (field : Bytes) :
    Option (Option (Bytes × Option ℕ)) :=
  match o with
  | .listpack lp =>
    match lpFind lp field 1 with
    | none => some none
    | some fptr => do
      let vptr ← lpNext lp fptr
      let value ← lp[vptr]?
      return some (value.text, none)
  | .listpackEx lp =>
    match lpFind lp field 2 with
    | none => some none
    | some fptr => do
      let vptr ← lpNext lp fptr
      let value ← lp[vptr]?
      let tptr ← lpNext lp vptr
      let t ← lp[tptr]?
      let expire ← t.integerValue
      return some (value.text, if expire = 0 then none else some expire)
  | .ht h =>
    match h.find field with
    | none => some none
    | some p => do
      let e ← h.heap p
      return some (e.value, e.expiry)

end RainCall
