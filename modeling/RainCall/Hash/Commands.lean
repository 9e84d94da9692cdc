import RainCall.Hash.Object
import RainCall.Foundation.Program
import RainCall.Util.IntegerText

/-!
# The commands on a hash

The commands of `t_hash.c` on one key. They reach the hash through the `hashType*` functions and the
functions of the keyspace, so each of them is a program over the interface `HashApi`; `hashApiStep`
implements the interface with the model of the hash object.

A command returns its reply and what is propagated in its place: nothing if it has not made the
dataset dirty or has called `preventCommandPropagation`, otherwise the command after rewriting. The
deletions of expired fields are propagated as `HDEL`s in front of it. Keyspace notifications, memory
accounting and the registration of the hash in the global store of hashes with expiry times are left
out. The arguments are those of a command that has been parsed, except for the bounds of the expiry
times.
-/

namespace RainCall

/-! ### The interface -/

/-- The operations the commands use on the hash at their key. -/
inductive HashApi
  /-- `lookupKeyRead` and `lookupKeyWrite`: does the key exist? -/
  | lookupKey
  /-- `createHashObject` and `dbAdd` -/
  | dbAdd
  | dbDelete
  /-- `hashTypeLength(o, 0) == 0` -/
  | isEmpty
  | encoding
  | tryConversion (args : List Bytes)
  | get (field : Bytes)
  | set (field value : Bytes) (keepTtl : Bool)
  | delete (field : Bytes)
  | setExInit
  | setEx (cond : ExpireSetCond) (field : Bytes) (expireAt : Option ℕ)
  | persist (field : Bytes)
  | propagateHashFieldDeletion (field : Bytes)
  | serverAssert (b : Bool)

/-- What the operations return. -/
@[reducible] def HashApi.Res : HashApi → Type
  | .lookupKey => Bool
  | .isEmpty => Bool
  | .encoding => HashEncoding
  | .get _ => Option (Bytes × Option ℕ)
  | .set .. => Bool
  | .delete _ => Bool
  | .setEx .. => SetExRes
  | _ => Unit

/-- Code that works on the hash at a key. -/
abbrev HashProg := Program HashApi HashApi.Res

namespace HashProg

def lookupKey : HashProg Bool := Program.perform HashApi.lookupKey
def dbAdd : HashProg Unit := Program.perform HashApi.dbAdd
def dbDelete : HashProg Unit := Program.perform HashApi.dbDelete
def isEmpty : HashProg Bool := Program.perform HashApi.isEmpty
def encoding : HashProg HashEncoding := Program.perform HashApi.encoding
def tryConversion (args : List Bytes) : HashProg Unit :=
  Program.perform (HashApi.tryConversion args)
def getField (field : Bytes) : HashProg (Option (Bytes × Option ℕ)) :=
  Program.perform (HashApi.get field)
def setField (field value : Bytes) (keepTtl : Bool) : HashProg Bool :=
  Program.perform (HashApi.set field value keepTtl)
def deleteField (field : Bytes) : HashProg Bool := Program.perform (HashApi.delete field)
def setExInit : HashProg Unit := Program.perform HashApi.setExInit
def setEx (cond : ExpireSetCond) (field : Bytes) (expireAt : Option ℕ) : HashProg SetExRes :=
  Program.perform (HashApi.setEx cond field expireAt)
def persistField (field : Bytes) : HashProg Unit := Program.perform (HashApi.persist field)
def propagateHashFieldDeletion (field : Bytes) : HashProg Unit :=
  Program.perform (HashApi.propagateHashFieldDeletion field)
def serverAssert (b : Bool) : HashProg Unit := Program.perform (HashApi.serverAssert b)

end HashProg

/-- The hash at a key, and the fields whose deletion has been propagated. -/
structure HashKey where
  slot : Option HashObj
  hdels : List Bytes

/-- The encoding of an object. -/
def HashObj.encoding : HashObj → HashEncoding
  | .listpack _ => .listpack
  | .listpackEx _ => .listpackEx
  | .ht _ => .ht

/-- How `hpersistCommand` removes the expiry time of a field that has one. -/
def hashTypePersist : HashObj → Bytes → Option HashObj
  | .listpack _, _ => none
  | .listpackEx lp, field => do
    let fptr ← lpFind lp field 2
    let vptr ← lpNext lp fptr
    let lp ← listpackExUpdateExpiry lp field fptr vptr 0
    return .listpackEx lp
  | .ht h, field => do
    let p ← h.find field
    let h ← h.hfieldPersist p
    return .ht h

/-- The implementation of the interface. -/
def hashApiStep (cfg : HashConfig) (ctx : HashCtx) (k : HashKey) :
    (op : HashApi) → Option (HashKey × op.Res)
  | .lookupKey => some (k, k.slot.isSome)
  | .dbAdd => if k.slot.isSome then none else some ({ k with slot := some createHashObject }, ())
  | .dbDelete => k.slot.map fun _ => ({ k with slot := none }, ())
  | .isEmpty => k.slot.map fun o => (k, hashTypeLength o == 0)
  | .encoding => k.slot.map fun o => (k, o.encoding)
  | .tryConversion args => do
    let o ← hashTypeTryConversion cfg (← k.slot) args
    return ({ k with slot := some o }, ())
  | .get field => do
    let r ← hashTypeGet (← k.slot) field
    return (k, r)
  | .set field value keepTtl => do
    let r ← hashTypeSet cfg (← k.slot) field value keepTtl
    return ({ k with slot := some r.1 }, r.2)
  | .delete field => do
    let r ← hashTypeDelete (← k.slot) field
    return ({ k with slot := some r.1 }, r.2)
  | .setExInit => do
    let o ← hashTypeSetExInit (← k.slot)
    return ({ k with slot := some o }, ())
  | .setEx cond field expireAt => do
    let r ← hashTypeSetEx cfg ctx (← k.slot) cond field expireAt
    -- A field that is deleted because its time has passed is propagated as `HDEL`.
    return (⟨some r.1, if r.2 = .deleted then k.hdels ++ [field] else k.hdels⟩, r.2)
  | .persist field => do
    let o ← hashTypePersist (← k.slot) field
    return ({ k with slot := some o }, ())
  | .propagateHashFieldDeletion field => some ({ k with hdels := k.hdels ++ [field] }, ())
  | .serverAssert b => if b then some (k, ()) else none

/-! ### Arguments, replies and commands -/

inductive TimeUnit
  | seconds
  | milliseconds
deriving DecidableEq, Repr

/-- An expiry time as given to a command. -/
structure ExpireArg where
  /-- Relative to the time of the command, and not a unix time. -/
  relative : Bool
  unit : TimeUnit
  val : ℤ
deriving DecidableEq, Repr

/-- The condition of `HSETEX`: none, `FXX` or `FNX`. -/
inductive FieldCond
  | any
  | fxx
  | fnx
deriving DecidableEq, Repr

/-- What `HSETEX` does with the expiry times. -/
inductive SetexTtl
  | discard
  | keepTtl
  | expire (arg : ExpireArg)
deriving DecidableEq, Repr

/-- What `HGETEX` does with the expiry times. -/
inductive GetexTtl
  | keep
  | persist
  | expire (arg : ExpireArg)
deriving DecidableEq, Repr

/-- The commands. -/
inductive HashCommand
  | hset (fvs : List (Bytes × Bytes))
  | hsetnx (field value : Bytes)
  | hsetex (cond : FieldCond) (ttl : SetexTtl) (fvs : List (Bytes × Bytes))
  | hincrby (field : Bytes) (incr : ℤ)
  | hincrbyfloat (field incr : Bytes)
  | hget (field : Bytes)
  | hmget (fields : List Bytes)
  | hexists (field : Bytes)
  | hstrlen (field : Bytes)
  | hgetex (ttl : GetexTtl) (fields : List Bytes)
  | hgetdel (fields : List Bytes)
  | hdel (fields : List Bytes)
  | hpersist (fields : List Bytes)
  /-- The `HEXPIRE` family. -/
  | hexpire (arg : ExpireArg) (cond : ExpireSetCond) (fields : List Bytes)
  /-- The `HTTL` family. -/
  | httl (relative : Bool) (unit : TimeUnit) (fields : List Bytes)
deriving DecidableEq, Repr

/-- The replies of the commands. -/
inductive HashReply
  | int (n : ℤ)
  | bulk (s : Option Bytes)
  | ints (ns : List ℤ)
  | bulks (ss : List (Option Bytes))
  | error (msg : String)
deriving DecidableEq, Repr

/-- The outcome of a command. -/
structure CommandResult where
  reply : HashReply
  dirty : ℕ
  /-- The command has called `preventCommandPropagation`. -/
  prevented : Bool
  /-- The command after rewriting. -/
  command : Option HashCommand
deriving DecidableEq, Repr

/-- The reply of a command that changes nothing. -/
def CommandResult.unchanged (reply : HashReply) : CommandResult := ⟨reply, 0, false, none⟩

/-- What is propagated in the place of the command. -/
def CommandResult.propagated (r : CommandResult) : List HashCommand :=
  if r.dirty = 0 ∨ r.prevented then [] else r.command.toList

def hfeMaxAbsTimeMsec : ℕ := (2 ^ 48 - 1) / 4

/-- `parseExpireTime` for the command `name`. -/
def parseExpireTime (name : String) (ctx : HashCtx) (arg : ExpireArg) : Except String ℕ :=
  let basetime : ℤ := if arg.relative then ctx.now else 0
  if arg.val < 0 then .error "invalid expire time, must be >= 0"
  else if arg.unit = .seconds ∧ arg.val > hfeMaxAbsTimeMsec / 1000 then
    .error ("invalid expire time in '" ++ name ++ "' command")
  else
    let val := if arg.unit = .seconds then arg.val * 1000 else arg.val
    if val > hfeMaxAbsTimeMsec - basetime then
      .error ("invalid expire time in '" ++ name ++ "' command")
    else .ok (val + basetime).toNat

/-- The names of the `HEXPIRE` family. -/
def ExpireArg.commandName (arg : ExpireArg) : String :=
  (if arg.unit = .seconds then "hexpire" else "hpexpire") ++ (if arg.relative then "" else "at")

/-- A unix time in milliseconds, as propagated. -/
def ExpireArg.pxat (expireTime : ℕ) : ExpireArg := ⟨false, .milliseconds, expireTime⟩

/-- The arithmetic of `HINCRBYFLOAT` on the texts of long doubles. -/
structure LongDoubleText where
  /-- The error for an argument that is no finite number. -/
  check : Bytes → Option String
  /-- The text of the sum, or the error for a value that is no number or a sum that is not finite.
  -/
  add : Option Bytes → Bytes → Except String Bytes

/-- Arithmetic that fails, for histories without `HINCRBYFLOAT`. -/
def noLongDouble : LongDoubleText := ⟨fun _ => none, fun _ _ => .error ""⟩

/-! ### Reading a field -/

/-- The result of `hashTypeGetValue`. -/
inductive GetFieldRes
  | ok (value : Bytes)
  | notFound
  | expired
  | expiredHash
deriving DecidableEq, Repr

/-- The value that was found. -/
def GetFieldRes.value : GetFieldRes → Option Bytes
  | .ok v => some v
  | _ => none

open HashProg

variable (ctx : HashCtx) (field : Bytes)

/-- `hashTypeGetValue`: the value of a field. A master deletes the field if it has expired, and the
key with its last field unless asked not to (`HFE_LAZY_AVOID_HASH_DEL`); a replica that executes a
command of its master takes the field as it is. -/
def hashTypeGetValue (avoidHashDel : Bool) : HashProg GetFieldRes := do
  match ← getField field with
  | none => return .notFound
  | some (v, none) => return .ok v
  | some (v, some expiredAt) =>
    if expiredAt ≥ ctx.now ∨ ctx.isMaster = false then return .ok v
    else
      serverAssert (← deleteField field)
      propagateHashFieldDeletion field
      if avoidHashDel then return .expired
      else if ← isEmpty then
        dbDelete
        return .expiredHash
      else return .expired

def hashTypeLookupWriteOrCreate : HashProg Unit := do
  let found ← lookupKey
  Program.when (found = false) dbAdd

/-- Delete the key of a hash that has become empty. -/
def deleteIfEmpty : HashProg Unit := do
  let empty ← isEmpty
  Program.when (empty = true) dbDelete

/-- `hgetCommand`, `hexistsCommand` and `hstrlenCommand`: one field, with the reply for its value.
-/
def readFieldCommand (reply : Option Bytes → HashReply) : HashProg CommandResult := do
  if ← lookupKey then
    let res ← hashTypeGetValue ctx field false
    return .unchanged (reply res.value)
  else return .unchanged (reply none)

def hgetCommand : HashProg CommandResult :=
  readFieldCommand ctx field .bulk

def hexistsCommand : HashProg CommandResult :=
  readFieldCommand ctx field fun v => .int (if v.isSome then 1 else 0)

def hstrlenCommand : HashProg CommandResult :=
  readFieldCommand ctx field fun v => .int (v.getD []).length

/-- The loop of `hmgetCommand`; `deleted` says that the key is gone. -/
def hmgetLoop (ctx : HashCtx) : Bool → List Bytes → HashProg (List (Option Bytes))
  | _, [] => return []
  | true, _ :: fields => do
    let rest ← hmgetLoop ctx true fields
    return none :: rest
  | false, field :: fields => do
    let res ← hashTypeGetValue ctx field false
    let rest ← hmgetLoop ctx (res = .expiredHash) fields
    return res.value :: rest

def hmgetCommand (fields : List Bytes) : HashProg CommandResult := do
  let found ← lookupKey
  let values ← hmgetLoop ctx (!found) fields
  return .unchanged (.bulks values)

/-! ### Writing fields -/

/-- The loop of `hsetCommand`: the number of new fields. -/
def hsetLoop : List (Bytes × Bytes) → HashProg ℕ
  | [] => return 0
  | (f, v) :: fvs => do
    let existed ← setField f v false
    let created ← hsetLoop fvs
    return created + (if existed then 0 else 1)

/-- The arguments of a list of fields and values. -/
def flatArgs (fvs : List (Bytes × Bytes)) : List Bytes :=
  fvs.flatMap fun fv => [fv.1, fv.2]

def hsetCommand (fvs : List (Bytes × Bytes)) : HashProg CommandResult := do
  hashTypeLookupWriteOrCreate
  tryConversion (flatArgs fvs)
  let created ← hsetLoop fvs
  return ⟨.int created, fvs.length, false, some (.hset fvs)⟩

def hsetnxCommand (field value : Bytes) : HashProg CommandResult := do
  hashTypeLookupWriteOrCreate
  let res ← hashTypeGetValue ctx field false
  if res.value.isSome then return .unchanged (.int 0)
  else
    -- The field has expired and in turn the hash was deleted: create a new one.
    Program.when (res = .expiredHash) dbAdd
    tryConversion [field, value]
    let _ ← setField field value false
    return ⟨.int 1, 1, false, some (.hsetnx field value)⟩

/-- `hincrbyCommand` and `hincrbyfloatCommand` once the increment is known: `next` computes the new
value. -/
def hincrGenericCommand
    (next : Option Bytes → Except String (Bytes × HashReply × HashCommand)) :
      HashProg CommandResult := do
  hashTypeLookupWriteOrCreate
  let res ← hashTypeGetValue ctx field false
  Program.when (res = .expiredHash) dbAdd
  match next res.value with
  | .error msg => return .unchanged (.error msg)
  | .ok (new, reply, command) =>
    let _ ← setField field new true
    return ⟨reply, 1, false, some command⟩

def hincrbyCommand (incr : ℤ) : HashProg CommandResult :=
  hincrGenericCommand ctx field fun old =>
    match old.elim (some 0) string2ll with
    | none => .error "hash value is not an integer"
    | some oldvalue =>
      if (incr < 0 ∧ oldvalue < 0 ∧ incr < -2 ^ 63 - oldvalue) ∨
          (incr > 0 ∧ oldvalue > 0 ∧ incr > 2 ^ 63 - 1 - oldvalue) then
        .error "increment or decrement would overflow"
      else
        .ok (ll2string longStrSize (oldvalue + incr), .int (oldvalue + incr), .hincrby field incr)

def hincrbyfloatCommand (ld : LongDoubleText) (ctx : HashCtx) (field incr : Bytes) :
    HashProg CommandResult :=
  match ld.check incr with
  | some msg => return .unchanged (.error msg)
  | none =>
    hincrGenericCommand ctx field fun old =>
      match ld.add old incr with
      | .error msg => .error msg
      | .ok new => .ok (new, .bulk (some new), .hsetex .any .keepTtl [(field, new)])

/-- The loop of `hsetexCommand` that checks `FXX` or `FNX`: how many fields exist and how many have
expired, up to the field that decides. -/
def hsetexCheck (ctx : HashCtx) (cond : FieldCond) : List Bytes → HashProg (ℕ × ℕ)
  | [] => return (0, 0)
  | field :: fields => do
    let res ← hashTypeGetValue ctx field true
    let found := if res.value.isSome then 1 else 0
    let expired := if res = .expired then 1 else 0
    if (cond = .fxx ∧ found = 0) ∨ (cond = .fnx ∧ found = 1) then return (found, expired)
    else
      let rest ← hsetexCheck ctx cond fields
      return (found + rest.1, expired + rest.2)

/-- The loop of `hsetexCommand` that sets the fields: how many of them were deleted because the
expiry time has passed. -/
def hsetexLoop (keepTtl : Bool) (expireTime : Option ℕ) :
    List (Bytes × Bytes) → HashProg ℕ
  | [] => return 0
  | (f, v) :: fvs => do
    let _ ← setField f v keepTtl
    match expireTime with
    | none => hsetexLoop keepTtl expireTime fvs
    | some t =>
      let res ← setEx .always f (some t)
      let deleted ← hsetexLoop keepTtl expireTime fvs
      return deleted + (if res = .deleted then 1 else 0)

/-- `hsetexCommand` behind the check: set the fields. -/
def hsetexApply (cond : FieldCond) (ttl : SetexTtl) (expireTime : Option ℕ)
    (fvs : List (Bytes × Bytes)) : HashProg CommandResult := do
  tryConversion (flatArgs fvs)
  Program.when (expireTime.isSome = true) setExInit
  let deleted ← hsetexLoop (ttl ≠ .discard) expireTime fvs
  deleteIfEmpty
  let ttl' := match expireTime with
    | some t => .expire (.pxat t)
    | none => ttl
  -- The deletions have been propagated already.
  return ⟨.int 1, fvs.length, 0 < deleted, some (.hsetex cond ttl' fvs)⟩

def hsetexTime : SetexTtl → Except String (Option ℕ)
  | .expire arg => some <$> parseExpireTime "hsetex" ctx arg
  | _ => .ok none

/-- `hsetexCommand` once the key exists: check `FXX` or `FNX` and set the fields. -/
def hsetexChecked (cond : FieldCond) (ttl : SetexTtl) (expireTime : Option ℕ)
    (fvs : List (Bytes × Bytes)) : HashProg CommandResult :=
  if cond = .any then hsetexApply cond ttl expireTime fvs
  else do
    let r ← hsetexCheck ctx cond (fvs.map Prod.fst)
    if (cond = .fnx ∧ r.1 ≠ 0) ∨ (cond = .fxx ∧ r.1 ≠ fvs.length) then
      Program.when (r.2 ≠ 0) deleteIfEmpty
      return .unchanged (.int 0)
    else hsetexApply cond ttl expireTime fvs

def hsetexCommand (cond : FieldCond) (ttl : SetexTtl) (fvs : List (Bytes × Bytes)) :
    HashProg CommandResult :=
  match hsetexTime ctx ttl with
  | .error msg => return .unchanged (.error msg)
  | .ok expireTime => do
    let found ← lookupKey
    if found = false ∧ cond = .fxx then return .unchanged (.int 0)
    else
      Program.when (found = false) dbAdd
      hsetexChecked ctx cond ttl expireTime fvs

/-! ### Deleting fields -/

/-- The loop of `hdelCommand`: how many fields were deleted; it ends when the hash is empty. -/
def hdelLoop : List Bytes → HashProg (ℕ × Bool)
  | [] => return (0, false)
  | field :: fields => do
    if ← deleteField field then
      if ← isEmpty then return (1, true)
      else
        let r ← hdelLoop fields
        return (r.1 + 1, r.2)
    else hdelLoop fields

def hdelCommand (fields : List Bytes) : HashProg CommandResult := do
  if ← lookupKey then
    let r ← hdelLoop fields
    Program.when (r.2 = true) dbDelete
    return ⟨.int r.1, r.1, false, some (.hdel fields)⟩
  else return .unchanged (.int 0)

/-- The loop of `hgetdelCommand`: the values, and how many fields have expired or were deleted. -/
def hgetdelLoop (ctx : HashCtx) :
    List Bytes → HashProg (List (Option Bytes) × ℕ × ℕ)
  | [] => return ([], 0, 0)
  | field :: fields => do
    let res ← hashTypeGetValue ctx field true
    Program.when (res.value.isSome = true) do
      serverAssert (← deleteField field)
    let r ← hgetdelLoop ctx fields
    return (res.value :: r.1, r.2.1 + (if res = .expired then 1 else 0),
      r.2.2 + (if res.value.isSome then 1 else 0))

def hgetdelCommand (fields : List Bytes) : HashProg CommandResult := do
  if ← lookupKey then
    let r ← hgetdelLoop ctx fields
    if r.2.1 = 0 ∧ r.2.2 = 0 then return .unchanged (.bulks r.1)
    else
      deleteIfEmpty
      return ⟨.bulks r.1, r.2.2, false, some (.hdel fields)⟩
  else return .unchanged (.bulks (fields.map fun _ => none))

/-! ### Expiry times -/

def SetExRes.reply : SetExRes → ℤ
  | .ok => 1
  | .noField => -2
  | .noConditionMet => 0
  | .deleted => 2

def hexpireLoop (cond : ExpireSetCond) (expireTime : ℕ) :
    List Bytes → HashProg (List (Bytes × SetExRes))
  | [] => return []
  | field :: fields => do
    let res ← setEx cond field (some expireTime)
    let rest ← hexpireLoop cond expireTime fields
    return (field, res) :: rest

/-- The fields of a loop with one result. -/
def fieldsWith (res : SetExRes) (rs : List (Bytes × SetExRes)) : List Bytes :=
  (rs.filter fun r => r.2 = res).map Prod.fst

/-- `hexpireGenericCommand`; it is propagated as `HPEXPIREAT` with the fields that were updated. -/
def hexpireGenericCommand (arg : ExpireArg) (cond : ExpireSetCond) (fields : List Bytes) :
    HashProg CommandResult :=
  match parseExpireTime arg.commandName ctx arg with
  | .error msg => return .unchanged (.error msg)
  | .ok expireTime => do
    if ← lookupKey then
      setExInit
      let rs ← hexpireLoop cond expireTime fields
      deleteIfEmpty
      let updated := fieldsWith .ok rs
      return ⟨.ints (rs.map fun r => r.2.reply), (fieldsWith .deleted rs).length + updated.length,
        updated = [], some (.hexpire (.pxat expireTime) cond updated)⟩
    else return .unchanged (.ints (fields.map fun _ => SetExRes.noField.reply))

/-- One field of `hpersistCommand` for an encoding with expiry times. -/
def hpersistField : HashProg ℤ := do
  match ← getField field with
  | none => return -2
  | some (_, none) => return -1
  | some (_, some prevExpire) =>
    -- Already expired: pretend there is no such field.
    if prevExpire < ctx.now then return -2
    else
      persistField field
      return 1

/-- The loop of `hpersistCommand` for an encoding with expiry times. -/
def hpersistLoop (ctx : HashCtx) : List Bytes → HashProg (List ℤ)
  | [] => return []
  | field :: fields => do
    let res ← hpersistField ctx field
    let rest ← hpersistLoop ctx fields
    return res :: rest

/-- The loop of `hpersistCommand` and `httlGenericCommand` for a listpack of pairs. -/
def noTtlLoop : List Bytes → HashProg (List ℤ)
  | [] => return []
  | field :: fields => do
    let r ← getField field
    let rest ← noTtlLoop fields
    return (if r.isSome then -1 else -2) :: rest

def hpersistCommand (fields : List Bytes) : HashProg CommandResult := do
  if ← lookupKey then
    if (← encoding) = .listpack then
      let rs ← noTtlLoop fields
      return .unchanged (.ints rs)
    else
      let rs ← hpersistLoop ctx fields
      return ⟨.ints rs, if 1 ∈ rs then 1 else 0, false, some (.hpersist fields)⟩
  else return .unchanged (.ints (fields.map fun _ => -2))

/-- The loop of `httlGenericCommand` for an encoding with expiry times; `isExpired` is the
comparison of the encoding. -/
def httlLoop (isExpired : ℕ → Bool) (basetime : ℕ) (unit : TimeUnit) :
    List Bytes → HashProg (List ℤ)
  | [] => return []
  | field :: fields => do
    let r ← getField field
    let rest ← httlLoop isExpired basetime unit fields
    let res : ℤ := match r with
      | none => -2
      | some (_, none) => -1
      | some (_, some expire) =>
        if isExpired expire then -2
        else if unit = .seconds then ((expire : ℤ) + 999 - basetime) / 1000
        else (expire : ℤ) - basetime
    return res :: rest

/-- `httlGenericCommand`: a listpack takes a field that expires at the time of the command for
expired, and a dict does not. -/
def httlGenericCommand (relative : Bool) (unit : TimeUnit) (fields : List Bytes) :
    HashProg CommandResult := do
  if ← lookupKey then
    let basetime := if relative then ctx.now else 0
    match ← encoding with
    | .listpack =>
      let rs ← noTtlLoop fields
      return .unchanged (.ints rs)
    | .listpackEx =>
      let rs ← httlLoop (fun expire => expire ≤ ctx.now) basetime unit fields
      return .unchanged (.ints rs)
    | .ht =>
      let rs ← httlLoop (fun expire => expire < ctx.now) basetime unit fields
      return .unchanged (.ints rs)
  else return .unchanged (.ints (fields.map fun _ => -2))

/-- The update of a field that `hgetexCommand` has found. -/
def hgetexUpdate (expireAt : Option (Option ℕ)) (field : Bytes) :
    GetFieldRes → HashProg (List SetExRes)
  | .ok _ =>
    match expireAt with
    | some t => do
      let r ← setEx .always field t
      return [r]
    | none => return []
  | _ => return []

/-- The loop of `hgetexCommand`: the values, how many fields have expired, and the results of
`hashTypeSetEx`. The argument `expireAt` is `none` without an option, and `some none` for
`PERSIST`. -/
def hgetexLoop (ctx : HashCtx) (expireAt : Option (Option ℕ)) :
    List Bytes → HashProg (List (Option Bytes) × ℕ × List SetExRes)
  | [] => return ([], 0, [])
  | field :: fields => do
    let res ← hashTypeGetValue ctx field true
    let set ← hgetexUpdate expireAt field res
    let r ← hgetexLoop ctx expireAt fields
    return (res.value :: r.1, r.2.1 + (if res = .expired then 1 else 0), set ++ r.2.2)

/-- What `HGETEX` does with the expiry times it finds. -/
def hgetexTime : GetexTtl → Except String (Option (Option ℕ))
  | .keep => .ok none
  | .persist => .ok (some none)
  | .expire arg => (fun t => some (some t)) <$> parseExpireTime "hgetex" ctx arg

/-- `hgetexCommand`; it is propagated as `HPERSIST` or `HPEXPIREAT` with all its fields if one of
them was updated. -/
def hgetexCommand (ttl : GetexTtl) (fields : List Bytes) : HashProg CommandResult :=
  match hgetexTime ctx ttl with
  | .error msg => return .unchanged (.error msg)
  | .ok expireAt => do
    if ← lookupKey then
      Program.when (expireAt.isSome = true) setExInit
      let r ← hgetexLoop ctx expireAt fields
      let deleted := r.2.2.count .deleted
      let updated := r.2.2.count .ok
      if r.2.1 = 0 ∧ deleted = 0 ∧ updated = 0 then return .unchanged (.bulks r.1)
      else
        let command : HashCommand := match expireAt with
          | some (some t) => .hexpire (.pxat t) .always fields
          | _ => .hpersist fields
        deleteIfEmpty
        return ⟨.bulks r.1, deleted + updated, updated = 0, some command⟩
    else return .unchanged (.bulks (fields.map fun _ => none))

/-! ### Execution -/

/-- The program of a command. -/
def hashCommand (ld : LongDoubleText) (ctx : HashCtx) : HashCommand → HashProg CommandResult
  | .hset fvs => hsetCommand fvs
  | .hsetnx field value => hsetnxCommand ctx field value
  | .hsetex cond ttl fvs => hsetexCommand ctx cond ttl fvs
  | .hincrby field incr => hincrbyCommand ctx field incr
  | .hincrbyfloat field incr => hincrbyfloatCommand ld ctx field incr
  | .hget field => hgetCommand ctx field
  | .hmget fields => hmgetCommand ctx fields
  | .hexists field => hexistsCommand ctx field
  | .hstrlen field => hstrlenCommand ctx field
  | .hgetex ttl fields => hgetexCommand ctx ttl fields
  | .hgetdel fields => hgetdelCommand ctx fields
  | .hdel fields => hdelCommand fields
  | .hpersist fields => hpersistCommand ctx fields
  | .hexpire arg cond fields => hexpireGenericCommand ctx arg cond fields
  | .httl relative unit fields => httlGenericCommand ctx relative unit fields

/-- Execute a command on the hash at a key: the hash afterwards, the reply and the commands that are
propagated. -/
def callHashCommand (ld : LongDoubleText) (cfg : HashConfig) (ctx : HashCtx) (slot : Option HashObj)
    (cmd : HashCommand) : Option (Option HashObj × HashReply × List HashCommand) := do
  let r ← (hashCommand ld ctx cmd).run (hashApiStep cfg ctx) ⟨slot, []⟩
  return (r.1.slot, r.2.reply, r.1.hdels.map (fun f => .hdel [f]) ++ r.2.propagated)

end RainCall
