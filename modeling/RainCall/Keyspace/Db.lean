import RainCall.Keyspace.Object
import RainCall.Util.IntegerText

/-!
# The databases and their index of expire times

A database stores a pointer to the key object of every key in `keys`, and a second pointer to the
same object in `expires` if the key has a TTL. Every operation that replaces or reallocates a key
object has to update both, and has to move the key between the bins of the key-size histogram.

The databases share one heap, since RENAME, MOVE and COPY pass objects between them. The hash slots
of a cluster, the field-expiry and stream indexes and the callbacks of modules are left out.
-/

namespace RainCall

/-- The part of `redisDb` that the key API works on. -/
structure RedisDb where
  keys : Finmap fun _ : Bytes => Addr
  expires : Finmap fun _ : Bytes => Addr
  /-- The histogram of key sizes, by type and bin. -/
  keysizes : ObjType → ℕ → ℤ

/-- The databases and the objects on the heap. -/
structure Keyspace (V : Type) where
  heap : ObjHeap V
  db : ℕ → RedisDb

variable {V : Type}

/-- The databases of a server that has just started. -/
def Keyspace.empty : Keyspace V where
  heap := ∅
  db _ := { keys := ∅, expires := ∅, keysizes := fun _ _ => 0 }

/-- Change the database `d`. -/
def Keyspace.modifyDb (s : Keyspace V) (d : ℕ) (f : RedisDb → RedisDb) : Keyspace V :=
  { s with db := Function.update s.db d (f (s.db d)) }

/-- The bin of a key of length `len`: `log2ceil` rounds down. -/
def keysizesBin (len : ℕ) : ℕ :=
  if len = 0 then 0 else Nat.log2 len + 1

/-- `kvsUpdateHistogram`; a length of `-1` is `none`. -/
def kvsUpdateHistogram (hist : ObjType → ℕ → ℤ) (type : ObjType) (oldLen newLen : Option ℕ) :
    ObjType → ℕ → ℤ :=
  if type.isBasic then fun t b =>
    hist t b - (if t = type ∧ oldLen.map keysizesBin = some b then 1 else 0) +
      (if t = type ∧ newLen.map keysizesBin = some b then 1 else 0)
  else hist

def updateKeysizesHist (s : Keyspace V) (d : ℕ) (type : ObjType) (oldLen newLen : Option ℕ) :
    Keyspace V :=
  s.modifyDb d fun db => { db with keysizes := kvsUpdateHistogram db.keysizes type oldLen newLen }

variable (cfg : KeyspaceConfig V)

section

variable (s : Keyspace V) (d : ℕ) (key : Bytes)

/-- `setExpireByLink`: a key without a TTL is added to `expires`, after its object may have been
reallocated. -/
def setExpireByLink (time : ℤ) : Option (Addr × Keyspace V) := do
  let a ← (s.db d).keys.lookup key
  let kv ← s.heap.lookup a
  let (a', h) ← kvobjSetExpire cfg s.heap a time
  if kvobjGetExpire kv ≠ -1 then
    if a' = a then some (a, { s with heap := h }) else none
  else do
    -- `kvstoreDictAddRaw` finds the place by the key that is embedded in the object
    let kv' ← h.lookup a'
    let key' ← kv'.key
    if (s.db d).expires.lookup key' = none then
      some (a', Keyspace.modifyDb { s with heap := h } d fun db =>
        { db with
          keys := if a' = a then db.keys else db.keys.insert key a'
          expires := db.expires.insert key' a' })
    else none

def removeExpire : Option (Bool × Keyspace V) :=
  match (s.db d).expires.lookup key with
  | none => some (false, s)
  | some a => do
    let (a', h) ← kvobjSetExpire cfg s.heap a (-1)
    if a' = a then
      some (true, Keyspace.modifyDb { s with heap := h } d fun db =>
        { db with expires := db.expires.erase key })
    else none

/-- `dbAddInternal`: `keymeta` is the expire time in the metadata that the key is created with. -/
def dbAddInternal (val : Addr) (keymeta : Option ℤ) : Option (Keyspace V) := do
  let (a, h) ← kvobjSet cfg s.heap key val keymeta.isSome
  let s₁ := Keyspace.modifyDb { s with heap := h } d fun db =>
    { db with keys := db.keys.insert key a }
  let s₂ ← keymeta.elim (some s₁) fun expire => do
    let (a', s₂) ← setExpireByLink cfg s₁ d key expire
    if a' = a then some s₂ else none
  let kv ← s₂.heap.lookup a
  some (updateKeysizesHist s₂ d kv.type none (some (getObjectLength cfg kv)))

/-- The values of both objects can be swapped in place. -/
def RedisObject.swappable (old val : RedisObject V) : Bool :=
  old.refcount = 1 ∧ old.encoding ≠ .embstr ∧ val.refcount = 1 ∧ val.encoding ≠ .embstr

/-- The first branch of `dbSetValue`: the old object stays in the database and takes the value of
the new one. -/
def dbSwapValue (a val : Addr) (keepTTL : Bool) : Option (Keyspace V) := do
  let old ← s.heap.lookup a
  let v ← s.heap.lookup val
  let h₁ := s.heap.insert a { old with type := v.type, encoding := v.encoding, ptr := v.ptr }
  let h₂ := h₁.insert val { v with type := old.type, encoding := old.encoding, ptr := old.ptr }
  if ¬ keepTTL ∧ 0 ≤ kvobjGetExpire old then do
    let (_, s') ← removeExpire cfg { s with heap := h₂ } d key
    some s'
  else some { s with heap := h₂ }

/-- The second branch of `dbSetValue`: a new object replaces the old one in `keys` and, if the key
has a TTL, in `expires`. -/
def dbReplaceObject (a val : Addr) (keepTTL : Bool) : Option (Addr × Keyspace V) := do
  let old ← s.heap.lookup a
  let oldExpire := kvobjGetExpire old
  let (kvNew, h) ← kvobjSet cfg s.heap key val (keepTTL && decide (oldExpire ≠ -1))
  let s₁ := Keyspace.modifyDb { s with heap := h } d fun db =>
    { db with keys := db.keys.insert key kvNew }
  if oldExpire = -1 then some (kvNew, s₁)
  else if keepTTL then do
    let (_, h₁) ← kvobjSetExpire cfg s₁.heap kvNew oldExpire
    let _ ← (s₁.db d).expires.lookup key
    some (kvNew, Keyspace.modifyDb { s₁ with heap := h₁ } d fun db =>
      { db with expires := db.expires.insert key kvNew })
  else
    some (kvNew, s₁.modifyDb d fun db => { db with expires := db.expires.erase key })

/-- The two branches of `dbSetValue`, with the object that is stored afterwards and the object that
is freed. -/
def dbStoreValue (a val : Addr) (keepTTL : Bool) : Option (Addr × Addr × Keyspace V) := do
  let old ← s.heap.lookup a
  let v ← s.heap.lookup val
  if old.swappable v
    then (dbSwapValue cfg s d key a val keepTTL).map fun s₁ => (a, val, s₁)
    else (dbReplaceObject cfg s d key a val keepTTL).map fun r => (r.1, a, r.2)

/-- The update of the histogram at the end of `dbSetValue`. -/
def updateReplacedKeysizes (oldType newType : ObjType) (oldLen newLen : ℕ) : Keyspace V :=
  if oldType = newType then updateKeysizesHist s d oldType (some oldLen) (some newLen)
  else
    updateKeysizesHist (updateKeysizesHist s d oldType (some oldLen) none) d newType none
      (some newLen)

def dbSetValue (val : Addr) (updateKeySizes : Bool) (keepTTL : Bool) : Option (Keyspace V) := do
  let a ← (s.db d).keys.lookup key
  let old ← s.heap.lookup a
  let (kvNew, freed, s₁) ← dbStoreValue cfg s d key a val keepTTL
  let new ← s₁.heap.lookup kvNew
  let s₂ := if updateKeySizes
    then updateReplacedKeysizes s₁ d old.type new.type (getObjectLength cfg old)
      (getObjectLength cfg new)
    else s₁
  let h ← decrRefCount s₂.heap freed
  some { s₂ with heap := h }

/-- `dbGenericDelete`. Whether the object is freed in the background makes no difference to the
databases. -/
def dbGenericDelete (updateKeySizes : Bool) : Option (Bool × Keyspace V) :=
  match (s.db d).keys.lookup key with
  | none => some (false, s)
  | some a => do
    let kv ← s.heap.lookup a
    let h ← decrRefCount s.heap a
    let s₁ := Keyspace.modifyDb { s with heap := h } d fun db =>
      { db with
        keys := db.keys.erase key
        expires := if kvobjGetExpire kv ≠ -1 then db.expires.erase key else db.expires }
    some (true, if updateKeySizes
      then updateKeysizesHist s₁ d kv.type (some (getObjectLength cfg kv)) none else s₁)

def dbDelete : Option (Keyspace V) :=
  (dbGenericDelete cfg s d key true).map Prod.snd

end

/-! ### Lookups -/

/-- What a command reads of the server: its clock, and whether it is a (writable) replica. -/
structure KeyspaceCtx where
  /-- `commandTimeSnapshot` -/
  now : ℤ
  /-- `server.masterhost != NULL`, with `server.repl_slave_ro` off. -/
  masterhost : Bool
deriving DecidableEq, Repr

variable (ctx : KeyspaceCtx) (s : Keyspace V) (d : ℕ) (key : Bytes)

/-- `keyIsExpired`, given the expire time of the key. -/
def KeyspaceCtx.keyIsExpired (time : ℤ) : Bool :=
  if time < 0 then false else ctx.now > time

def KeyspaceCtx.checkAlreadyExpired (time : ℤ) : Bool :=
  time ≤ ctx.now ∧ ¬ ctx.masterhost

/-- `lookupKey` with `expireIfNeeded`: an expired key is not found, and it is deleted unless the
lookup is for reading on a replica. -/
def Keyspace.lookupKey (write : Bool) : Option (Option Addr × Keyspace V) :=
  match (s.db d).keys.lookup key with
  | none => some (none, s)
  | some a => do
    let kv ← s.heap.lookup a
    if ctx.keyIsExpired (kvobjGetExpire kv) then
      if ctx.masterhost ∧ ¬ write then some (none, s)
      else (dbDelete cfg s d key).map fun s' => (none, s')
    else some (some a, s)

/-! ### The commands -/

/-- A new value object. -/
def createObject (v : RedisObject V) : Addr × Keyspace V :=
  (cfg.malloc s.heap, { s with heap := s.heap.insert (cfg.malloc s.heap) v })

/-- `setKey` with no flags or with `SETKEY_KEEPTTL`. -/
def setKey (val : Addr) (keepTTL : Bool) : Option (Keyspace V) := do
  let (oldval, s₁) ← s.lookupKey cfg ctx d key true
  if oldval.isSome then dbSetValue cfg s₁ d key val true keepTTL
  else dbAddInternal cfg s₁ d key val none

/-- The absolute time in milliseconds that the argument of EXPIRE, PEXPIRE, EXPIREAT or PEXPIREAT
stands for, or `none` if the command is refused because of an overflow. -/
def KeyspaceCtx.expireTime (param : ℤ) (relative seconds : Bool) : Option ℤ :=
  if seconds ∧
    (param > (llongMax : ℤ).tdiv 1000 ∨ param < (-(llongMax : ℤ) - 1).tdiv 1000) then none
  else
    let time := if seconds then param * 1000 else param
    let basetime := if relative then ctx.now else 0
    if time > llongMax - basetime then none else some (time + basetime)

/-- `EXPIRE_NX`, `EXPIRE_XX`, `EXPIRE_GT` and `EXPIRE_LT`. -/
structure ExpireFlags where
  nx : Bool
  xx : Bool
  gt : Bool
  lt : Bool
deriving DecidableEq, Repr

/-- The checks of `parseExtendedExpireArgumentsOrReply`, which replies an error otherwise. -/
def ExpireFlags.compatible (f : ExpireFlags) : Bool :=
  ¬ (f.nx ∧ f.xx ∨ f.nx ∧ f.gt ∨ f.nx ∧ f.lt) ∧ ¬ (f.gt ∧ f.lt)

/-- The conditions of the flags on the current expire time and the new one. -/
def ExpireFlags.allow (f : ExpireFlags) (current time : ℤ) : Bool :=
  ¬ (f.nx ∧ current ≠ -1) ∧ ¬ (f.xx ∧ current = -1) ∧
    ¬ (f.gt ∧ (time ≤ current ∨ current = -1)) ∧ ¬ (f.lt ∧ (current ≠ -1 ∧ time ≥ current))

/-- EXPIRE, PEXPIRE, EXPIREAT and PEXPIREAT. An error changes nothing. -/
def expireGenericCommand (param : ℤ) (relative seconds : Bool) (flags : ExpireFlags) :
    Option (Keyspace V) :=
  if ¬ flags.compatible then some s else
  match ctx.expireTime param relative seconds with
  | none => some s
  | some time => do
    let (found, s₁) ← s.lookupKey cfg ctx d key true
    found.elim (some s₁) fun a => do
      let kv ← s₁.heap.lookup a
      if ¬ flags.allow (kvobjGetExpire kv) time then some s₁
      else if ctx.checkAlreadyExpired time then do
        let (deleted, s₂) ← dbGenericDelete cfg s₁ d key true
        if deleted then some s₂ else none
      else (setExpireByLink cfg s₁ d key time).map Prod.snd

/-- The expire time that `keyMetaOnRename`, `keyMetaOnMove` and `keyMetaOnCopy` pass on. -/
def keyMetaOnTransfer (kv : RedisObject V) : Option ℤ :=
  kv.expire.filter (· ≠ -1)

def renameGenericCommand (src dst : Bytes) (nx : Bool) : Option (Keyspace V) := do
  let (found, s₁) ← s.lookupKey cfg ctx d src true
  found.elim (some s₁) fun o =>
    if src = dst then some s₁ else do
      let h ← incrRefCount s₁.heap o
      let (destval, s₂) ← Keyspace.lookupKey cfg ctx { s₁ with heap := h } d dst true
      if destval.isSome ∧ nx then do
        let h₂ ← decrRefCount s₂.heap o
        some { s₂ with heap := h₂ }
      else do
        let s₃ ← if destval.isSome then dbDelete cfg s₂ d dst else some s₂
        let kv ← s₃.heap.lookup o
        let s₄ ← dbDelete cfg s₃ d src
        dbAddInternal cfg s₄ d dst o (keyMetaOnTransfer kv)

/-- `moveCommand`; a database out of range and a move within one database are errors. -/
def moveCommand (src : ℕ) (key : Bytes) (dst : ℕ) : Option (Keyspace V) :=
  if cfg.dbnum ≤ dst ∨ src = dst then some s else do
    let (found, s₁) ← s.lookupKey cfg ctx src key true
    found.elim (some s₁) fun o => do
      let (destval, s₂) ← s₁.lookupKey cfg ctx dst key true
      if destval.isSome then some s₂ else do
        let kv ← s₂.heap.lookup o
        let h ← incrRefCount s₂.heap o
        let s₃ ← dbDelete cfg { s₂ with heap := h } src key
        dbAddInternal cfg s₃ dst key o (keyMetaOnTransfer kv)

/-- The object that `dupStringObject`, `listTypeDup` and so on return. -/
def dupObject (o : RedisObject V) : RedisObject V :=
  { o with refcount := 1, key := none, expire := none }

/-- `copyCommand`; `moduleDup` says whether the type of a module value can copy it. -/
def copyCommand (src : ℕ) (key : Bytes) (dst : ℕ) (newkey : Bytes)
    (replace moduleDup : Bool) : Option (Keyspace V) :=
  if cfg.dbnum ≤ dst ∨ src = dst ∧ key = newkey then some s else do
    let (found, s₁) ← s.lookupKey cfg ctx src key false
    found.elim (some s₁) fun o => do
      let (destval, s₂) ← s₁.lookupKey cfg ctx dst newkey true
      if destval.isSome ∧ ¬ replace then some s₂ else do
        let kv ← s₂.heap.lookup o
        if kv.type = .module ∧ ¬ moduleDup then some s₂ else do
          let (newobj, s₃) := createObject cfg s₂ (dupObject kv)
          let s₄ ← if destval.isSome then dbDelete cfg s₃ dst newkey else some s₃
          dbAddInternal cfg s₄ dst newkey newobj (keyMetaOnTransfer kv)

/-- The operations on the databases. -/
inductive KeyspaceOp (V : Type)
  | dbAdd (d : ℕ) (key : Bytes) (val : RedisObject V)
  | setKey (d : ℕ) (key : Bytes) (val : RedisObject V) (keepTTL : Bool)
  | dbReplaceValue (d : ℕ) (key : Bytes) (val : RedisObject V) (updateKeySizes : Bool)
  | expire (d : ℕ) (key : Bytes) (param : ℤ) (relative seconds : Bool) (flags : ExpireFlags)
  | removeExpire (d : ℕ) (key : Bytes)
  | dbGenericDelete (d : ℕ) (key : Bytes)
  | rename (d : ℕ) (src dst : Bytes) (nx : Bool)
  | move (src : ℕ) (key : Bytes) (dst : ℕ)
  | copy (src : ℕ) (key : Bytes) (dst : ℕ) (newkey : Bytes) (replace moduleDup : Bool)

/-- One operation; the values are created by the caller. -/
def keyspaceStep : KeyspaceCtx × KeyspaceOp V → Option (Keyspace V)
  | (_, .dbAdd d key val) =>
    let (a, s₁) := createObject cfg s val
    dbAddInternal cfg s₁ d key a none
  | (ctx, .setKey d key val keepTTL) =>
    let (a, s₁) := createObject cfg s val
    setKey cfg ctx s₁ d key a keepTTL
  | (_, .dbReplaceValue d key val updateKeySizes) =>
    let (a, s₁) := createObject cfg s val
    dbSetValue cfg s₁ d key a updateKeySizes true
  | (ctx, .expire d key param relative seconds flags) =>
    expireGenericCommand cfg ctx s d key param relative seconds flags
  | (_, .removeExpire d key) => (removeExpire cfg s d key).map Prod.snd
  | (_, .dbGenericDelete d key) => (dbGenericDelete cfg s d key true).map Prod.snd
  | (ctx, .rename d src dst nx) => renameGenericCommand cfg ctx s d src dst nx
  | (ctx, .move src key dst) => moveCommand cfg ctx s src key dst
  | (ctx, .copy src key dst newkey replace moduleDup) =>
    copyCommand cfg ctx s src key dst newkey replace moduleDup

end RainCall
