import RainCall.Resp.Accessors

/-!
# Replies between Redis and Lua

The value a script gets from `RAIN.CALL` goes through `raincall_Reply`, which is built from a
`CallReply` inside the server (`raincall_inprocess.c`) and from a hiredis reply in the TCP client
(`raincall.c`), and is then pushed onto the Lua stack. `RAIN.FALL` writes the value a script returns
as a RESP reply (`rainfall.c`).

A value on the Lua stack is the value itself, and a raised error its text. A Lua table is the list
of its entries; assigning `nil` removes an entry.
-/

namespace RainCall

/-! ### `raincall_Reply` -/

inductive RaincallReplyType where
  | status
  | string
  | integer
  | nil
  | array
  | error
  | double
  | bool
  | map
  | set
  | attr
  | push
  | verb
  | bignum
  deriving DecidableEq, Repr

/-- `raincall_Reply`: `str` is `none` for a null pointer. -/
structure RaincallReply where
  type : RaincallReplyType
  str : Option Bytes
  integer : ℤ
  number : BitVec 64
  element : List RaincallReply

def raincallReplyNew (type : RaincallReplyType) : RaincallReply := ⟨type, none, 0, 0, []⟩

/-- Copying a string that is there and not empty. -/
def RaincallReply.withStr (dst : RaincallReply) (s : Option Bytes) : RaincallReply :=
  match s with
  | some (c :: cs) => { dst with str := some (c :: cs) }
  | _ => dst

/-- The text of `raincall_reply_error("unsupported Redis reply type")`. -/
def unsupportedReplyText : Bytes :=
  "unsupported Redis reply type".toUTF8.toList

def raincallReplyError (s : Bytes) : RaincallReply := ⟨.error, some s, 0, 0, []⟩

/-! ### From a `CallReply` -/

def raincallReplyTypeFromCallReply : CallReplyType → RaincallReplyType
  | .string => .string
  | .error => .error
  | .integer => .integer
  | .array => .array
  | .null => .nil
  | .map => .map
  | .set => .set
  | .bool => .bool
  | .double => .double
  | .bigNumber => .bignum
  | .verbatimString => .verb
  | .attribute => .attr
  | .unknown => .error

/-- `raincall_reply_from_call_reply`, for at most `fuel` nested calls; a null pointer is a reply of
unknown type. -/
def raincallReplyFromCallReply (buf : Bytes) : ℕ → Option CallReply → Option RaincallReply
  | 0, _ => none
  | _ + 1, none => some (raincallReplyError unsupportedReplyText)
  | fuel + 1, some src =>
    let dst := raincallReplyNew (raincallReplyTypeFromCallReply (callReplyType src))
    match callReplyType src with
    | .string | .error => some (dst.withStr (callReplyGetString buf src))
    | .integer => some { dst with integer := callReplyGetLongLong src }
    | .bool => some { dst with integer := callReplyGetBool src }
    | .double => some { dst with number := callReplyGetDouble src }
    | .bigNumber => some (dst.withStr (callReplyGetBigNumber buf src))
    | .verbatimString => some (dst.withStr ((callReplyGetVerbatim buf src).map Prod.fst))
    | .array | .attribute => do
      let element ← (List.range (callReplyGetLen src)).mapM fun i =>
        raincallReplyFromCallReply buf fuel (callReplyGetArrayElement src i)
      pure { dst with element }
    | .set => do
      let element ← (List.range (callReplyGetLen src)).mapM fun i =>
        raincallReplyFromCallReply buf fuel (callReplyGetSetElement src i)
      pure { dst with element }
    | .map => do
      let entries ← (List.range (callReplyGetLen src)).mapM fun i => do
        let entry ← callReplyGetMapElement src i
        let key ← raincallReplyFromCallReply buf fuel entry.1
        let value ← raincallReplyFromCallReply buf fuel entry.2
        pure [key, value]
      pure { dst with element := entries.flatten }
    | .null => some dst
    | .unknown => some (raincallReplyError unsupportedReplyText)

/-- The in-process backend's reply for the bytes a command has written: `callReplyCreate` and
`raincall_reply_from_call_reply`. -/
def raincallInprocessReply (strtod : Bytes → BitVec 64) (proto : Bytes) :
    Option RaincallReply := do
  let r ← callReplyParse strtod proto
  raincallReplyFromCallReply proto (proto.length + 1) (some r.1)

/-! ### From a hiredis reply -/

/-- `REDIS_REPLY_*`; the last one is any other number. -/
inductive RedisReplyType where
  | status
  | string
  | integer
  | nil
  | array
  | error
  | double
  | bool
  | map
  | set
  | attr
  | push
  | verb
  | bignum
  | other
  deriving DecidableEq, Repr

structure RedisReply where
  type : RedisReplyType
  str : Option Bytes
  integer : ℤ
  dval : BitVec 64
  element : List RedisReply

def raincallReplyTypeFromHiredis : RedisReplyType → RaincallReplyType
  | .status => .status
  | .string => .string
  | .integer => .integer
  | .nil => .nil
  | .array => .array
  | .error => .error
  | .double => .double
  | .bool => .bool
  | .map => .map
  | .set => .set
  | .attr => .attr
  | .push => .push
  | .verb => .verb
  | .bignum => .bignum
  | .other => .error

mutual

def raincallReplyFromHiredis : RedisReply → RaincallReply
  | ⟨type, str, integer, dval, element⟩ =>
    { raincallReplyNew (raincallReplyTypeFromHiredis type) with
      integer, number := dval, element := raincallRepliesFromHiredis element }.withStr str

/-- The elements of a hiredis reply. -/
def raincallRepliesFromHiredis : List RedisReply → List RaincallReply
  | [] => []
  | src :: rest => raincallReplyFromHiredis src :: raincallRepliesFromHiredis rest

end

/-! ### Lua values -/

/-- A key of a Lua table, as far as this code uses them. -/
inductive LuaKey where
  | int (i : ℕ)
  | str (s : String)
  deriving DecidableEq, Repr

/-- A Lua value, with a table as the list of its entries. -/
inductive LuaValue where
  | nil
  | boolean (b : Bool)
  | integer (n : ℤ)
  | number (d : BitVec 64)
  | string (s : Bytes)
  | table (entries : List (LuaKey × LuaValue))

/-- The entries of a Lua table. -/
abbrev LuaTable := List (LuaKey × LuaValue)

/-- The value at a key, `nil` when there is no entry. -/
def LuaTable.get (t : LuaTable) (k : LuaKey) : LuaValue :=
  ((t.find? fun e => e.1 = k).map Prod.snd).getD .nil

/-- Assignment to a key; assigning `nil` stores nothing. -/
def LuaTable.set (t : LuaTable) (k : LuaKey) (v : LuaValue) : LuaTable :=
  match v with
  | .nil => t.filter fun e => e.1 ≠ k
  | v => (k, v) :: t.filter fun e => e.1 ≠ k

/-! ### Pushing a reply -/

mutual

/-- `raincall_push_reply`: the pushed value, or the text of the raised error. -/
def raincallPushReply : RaincallReply → Except Bytes LuaValue
  | ⟨type, str, integer, number, element⟩ =>
    match type with
    | .status | .string | .verb | .bignum => .ok (.string (str.getD []))
    | .integer => .ok (.integer integer)
    | .double => .ok (.number number)
    | .bool => .ok (.boolean (integer ≠ 0))
    | .nil => .ok .nil
    | .error => .error (str.getD [])
    | .array | .set | .attr | .push =>
      match raincallPushAggregateReply element 1 [] with
      | .ok t => .ok (.table t)
      | .error e => .error e
    | .map =>
      match raincallPushMapReply element 1 [] with
      | .ok t => .ok (.table t)
      | .error e => .error e

/-- The loop of `raincall_push_aggregate_reply`, from index `i` on. -/
def raincallPushAggregateReply : List RaincallReply → ℕ → LuaTable → Except Bytes LuaTable
  | [], _, t => .ok t
  | r :: rest, i, t =>
    match raincallPushReply r with
    | .error e => .error e
    | .ok v => raincallPushAggregateReply rest (i + 1) (t.set (.int i) v)

/-- The loop of `raincall_push_map_reply`, from the given pair on. -/
def raincallPushMapReply : List RaincallReply → ℕ → LuaTable → Except Bytes LuaTable
  | k :: v :: rest, pair, t =>
    match raincallPushReply k with
    | .error e => .error e
    | .ok key =>
      match raincallPushReply v with
      | .error e => .error e
      | .ok value =>
        raincallPushMapReply rest (pair + 1) (t.set (.int pair)
          (.table (LuaTable.set (LuaTable.set [] (.str "key") key) (.str "value") value)))
  | _, _, t => .ok t

end

end RainCall
