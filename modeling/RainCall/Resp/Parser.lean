import RainCall.Resp.Tree

/-!
# The RESP parser and `CallReply`

`resp_parser.c` with the callbacks of `call_reply.c`. The buffer is a list of bytes, terminated by a
NUL byte behind its end, and a pointer into it is an offset. The parser checks nothing: where the
source follows a null pointer or reads a number that was never written, the model has no value.

`fast_float_strtod` is a parameter. A reply is parsed when it is first looked at; the accessors here
are on a parsed reply.
-/

namespace RainCall

/-- `REDISMODULE_REPLY_*` -/
inductive CallReplyType where
  | unknown
  | string
  | error
  | integer
  | array
  | null
  | map
  | set
  | bool
  | double
  | bigNumber
  | verbatimString
  | attribute
  deriving DecidableEq, Repr

/-- The union `val` of a reply. -/
inductive CallReplyVal (α : Type) where
  | unset
  | str (str : ℕ)
  | verbatimStr (str format : ℕ)
  | ll (ll : ℤ)
  | d (d : BitVec 64)
  | array (array : List α)

/-- `CallReply`, with the flags `REPLY_FLAG_PARSED` and `REPLY_FLAG_RESP3`. -/
structure CallReply where
  type : CallReplyType
  proto : ℕ
  protoLen : ℕ
  parsed : Bool
  resp3 : Bool
  len : ℕ
  val : CallReplyVal CallReply
  attr : Option CallReply

/-- A reply of zero bytes, as `zcalloc` returns it. -/
def CallReply.zero : CallReply := ⟨.string, 0, 0, false, false, 0, .unset, none⟩

/-! ### Callbacks -/

section

variable (rep : CallReply)

def callReplySetSharedData (type : CallReplyType) (proto protoLen : ℕ) (resp3 : Bool) : CallReply :=
  { rep with type, proto, protoLen, resp3 := rep.resp3 || resp3 }

def callReplyNull (proto protoLen : ℕ) : CallReply :=
  callReplySetSharedData rep .null proto protoLen true

def callReplyNullBulkString (proto protoLen : ℕ) : CallReply :=
  callReplySetSharedData rep .null proto protoLen false

def callReplyNullArray (proto protoLen : ℕ) : CallReply :=
  callReplySetSharedData rep .null proto protoLen false

/-- The callbacks that store a string. -/
def callReplySetStr (type : CallReplyType) (resp3 : Bool) (rep : CallReply)
    (str len proto protoLen : ℕ) : CallReply :=
  { callReplySetSharedData rep type proto protoLen resp3 with len, val := .str str }

def callReplyBulkString : CallReply → ℕ → ℕ → ℕ → ℕ → CallReply := callReplySetStr .string false

def callReplyError : CallReply → ℕ → ℕ → ℕ → ℕ → CallReply := callReplySetStr .error false

def callReplySimpleStr : CallReply → ℕ → ℕ → ℕ → ℕ → CallReply := callReplySetStr .string false

def callReplyBigNumber : CallReply → ℕ → ℕ → ℕ → ℕ → CallReply := callReplySetStr .bigNumber true

def callReplyLong (val : ℤ) (proto protoLen : ℕ) : CallReply :=
  { callReplySetSharedData rep .integer proto protoLen false with val := .ll val }

def callReplyDouble (val : BitVec 64) (proto protoLen : ℕ) : CallReply :=
  { callReplySetSharedData rep .double proto protoLen true with val := .d val }

def callReplyVerbatimString (format str len proto protoLen : ℕ) : CallReply :=
  { callReplySetSharedData rep .verbatimString proto protoLen true with
    len, val := .verbatimStr str format }

def callReplyBool (val : Bool) (proto protoLen : ℕ) : CallReply :=
  { callReplySetSharedData rep .bool proto protoLen true with val := .ll (if val then 1 else 0) }

end

/-- The loop of `callReplyParseCollection`: `n` replies, each into a zeroed cell. -/
def parseReplies (parse : ℕ → CallReply → Option (CallReply × ℕ)) :
    ℕ → ℕ → Option (List CallReply × ℕ)
  | 0, pos => some ([], pos)
  | n + 1, pos => do
    let r ← parse pos .zero
    let rest ← parseReplies parse n r.2
    pure ({ r.1 with parsed := true } :: rest.1, rest.2)

section

variable (parse : ℕ → CallReply → Option (CallReply × ℕ)) (pos : ℕ) (rep : CallReply)
    (len proto : ℕ)

def callReplyParseCollection (len proto perEntry : ℕ) : Option (CallReply × ℕ) := do
  let r ← parseReplies parse (len * perEntry) pos
  pure ({ rep with
    len, val := .array r.1, resp3 := rep.resp3 || r.1.any CallReply.resp3,
    proto, protoLen := r.2 - proto }, r.2)

def callReplyAttribute : Option (CallReply × ℕ) := do
  let a ← callReplyParseCollection parse pos { CallReply.zero with len, type := .attribute } len
    proto 2
  let r ← parse a.2 { rep with attr := some { a.1 with parsed := true, resp3 := true } }
  pure ({ r.1 with proto, protoLen := r.2 - proto, resp3 := true }, r.2)

def callReplyArray : Option (CallReply × ℕ) :=
  callReplyParseCollection parse pos { rep with type := .array } len proto 1

def callReplySet : Option (CallReply × ℕ) := do
  let r ← callReplyParseCollection parse pos { rep with type := .set } len proto 1
  pure ({ r.1 with resp3 := true }, r.2)

def callReplyMap : Option (CallReply × ℕ) := do
  let r ← callReplyParseCollection parse pos { rep with type := .map } len proto 2
  pure ({ r.1 with resp3 := true }, r.2)

end

def callReplyParseError (rep : CallReply) : CallReply := { rep with type := .unknown }

/-! ### The parser -/

/-- `strchr`, which stops at a NUL byte. -/
def strchr (c : UInt8) : Bytes → Option ℕ
  | [] => none
  | b :: bytes =>
    if b = c then some 0
    else if b = 0 then none
    else (strchr c bytes).map (· + 1)

section

variable (parse : ℕ → CallReply → Option (CallReply × ℕ)) (buf : Bytes) (proto : ℕ)
    (rep : CallReply)

/-- The start of every parser function: the text up to the CR, and the position behind the LF. -/
def parseLine : Option (Bytes × ℕ) := do
  let n ← strchr 13 (buf.drop (proto + 1))
  pure ((buf.drop (proto + 1)).take n, proto + 1 + n + 2)

/-- A length on the line; a negative one moves the position backwards. -/
def parseLength (line : Bytes) : Option ℕ := do
  let len ← string2ll line
  if len < 0 then none else pure len.toNat

def parseBulk : Option (CallReply × ℕ) := do
  let l ← parseLine buf proto
  let bulklen ← string2ll l.1
  if bulklen = -1 then pure (callReplyNullBulkString rep proto (l.2 - proto), l.2)
  else
    let len ← parseLength l.1
    let curr := l.2 + len + 2
    pure (callReplyBulkString rep l.2 len proto (curr - proto), curr)

def parseSimpleString : Option (CallReply × ℕ) := do
  let l ← parseLine buf proto
  pure (callReplySimpleStr rep (proto + 1) l.1.length proto (l.2 - proto), l.2)

def parseError : Option (CallReply × ℕ) := do
  let l ← parseLine buf proto
  pure (callReplyError rep (proto + 1) l.1.length proto (l.2 - proto), l.2)

def parseLong : Option (CallReply × ℕ) := do
  let l ← parseLine buf proto
  let val ← string2ll l.1
  pure (callReplyLong rep val proto (l.2 - proto), l.2)

def parseAttributes : Option (CallReply × ℕ) := do
  let l ← parseLine buf proto
  let len ← parseLength l.1
  callReplyAttribute parse l.2 rep len proto

def parseVerbatimString : Option (CallReply × ℕ) := do
  let l ← parseLine buf proto
  let bulklen ← parseLength l.1
  let curr := l.2 + bulklen + 2
  pure (callReplyVerbatimString rep l.2 (l.2 + 4) (bulklen - 4) proto (curr - proto), curr)

def parseBigNumber : Option (CallReply × ℕ) := do
  let l ← parseLine buf proto
  pure (callReplyBigNumber rep (proto + 1) l.1.length proto (l.2 - proto), l.2)

def parseNull : Option (CallReply × ℕ) := do
  let l ← parseLine buf proto
  pure (callReplyNull rep proto (l.2 - proto), l.2)

def maxLongDoubleChars : ℕ := 5 * 1024

def parseDouble (strtod : Bytes → BitVec 64) (buf : Bytes) (proto : ℕ)
    (rep : CallReply) : Option (CallReply × ℕ) := do
  let l ← parseLine buf proto
  let d := if l.1.length ≤ maxLongDoubleChars then strtod l.1 else 0
  pure (callReplyDouble rep d proto (l.2 - proto), l.2)

def parseBool : Option (CallReply × ℕ) := do
  let l ← parseLine buf proto
  pure (callReplyBool rep (buf[proto + 1]?.getD 0 = 116) proto (l.2 - proto), l.2)

def parseArray : Option (CallReply × ℕ) := do
  let l ← parseLine buf proto
  let len ← string2ll l.1
  if len = -1 then pure (callReplyNullArray rep proto (l.2 - proto), l.2)
  else
    let len ← parseLength l.1
    callReplyArray parse l.2 rep len proto

def parseSet : Option (CallReply × ℕ) := do
  let l ← parseLine buf proto
  let len ← parseLength l.1
  callReplySet parse l.2 rep len proto

def parseMap : Option (CallReply × ℕ) := do
  let l ← parseLine buf proto
  let len ← parseLength l.1
  callReplyMap parse l.2 rep len proto

end

/-- `parseReply` with the default callbacks, for at most `fuel` nested calls: the reply and the
position behind it. -/
def parseReply (strtod : Bytes → BitVec 64) (buf : Bytes) :
    ℕ → ℕ → CallReply → Option (CallReply × ℕ)
  | 0, _, _ => none
  | fuel + 1, pos, rep =>
    match buf[pos]?.getD 0 with
    | 36 => parseBulk buf pos rep
    | 43 => parseSimpleString buf pos rep
    | 45 => parseError buf pos rep
    | 58 => parseLong buf pos rep
    | 42 => parseArray (parseReply strtod buf fuel) buf pos rep
    | 126 => parseSet (parseReply strtod buf fuel) buf pos rep
    | 37 => parseMap (parseReply strtod buf fuel) buf pos rep
    | 35 => parseBool buf pos rep
    | 44 => parseDouble strtod buf pos rep
    | 95 => parseNull buf pos rep
    | 40 => parseBigNumber buf pos rep
    | 61 => parseVerbatimString buf pos rep
    | 124 => parseAttributes (parseReply strtod buf fuel) buf pos rep
    | _ => some (callReplyParseError rep, pos)

/-- `callReplyParse` of a reply that `callReplyCreate` made of the buffer. Every call of the parser
inside another starts at a later byte, so the length of the buffer is fuel enough. -/
def callReplyParse (strtod : Bytes → BitVec 64) (buf : Bytes) :
    Option (CallReply × ℕ) := do
  let r ← parseReply strtod buf (buf.length + 1) 0 .zero
  pure ({ r.1 with parsed := true }, r.2)

/-! ### Accessors -/

variable (buf : Bytes) (rep : CallReply)

/-- The bytes a pointer and a length stand for. -/
def bytesAt (p len : ℕ) : Bytes := (buf.drop p).take len

def callReplyType : CallReplyType := rep.type

def callReplyGetString : Option Bytes :=
  if rep.type ≠ .string ∧ rep.type ≠ .error then none
  else match rep.val with
    | .str str => some (bytesAt buf str rep.len)
    | _ => none

def callReplyGetLongLong : ℤ :=
  if rep.type ≠ .integer then -(2 ^ 63)
  else match rep.val with
    | .ll ll => ll
    | _ => 0

/-- `callReplyGetDouble`; the double of `LLONG_MIN` is `0xc3e0000000000000`. -/
def callReplyGetDouble : BitVec 64 :=
  if rep.type ≠ .double then 0xc3e0000000000000#64
  else match rep.val with
    | .d d => d
    | _ => 0

def callReplyGetBool : ℤ :=
  if rep.type ≠ .bool then -(2 ^ 31)
  else match rep.val with
    | .ll ll => ll
    | _ => 0

def callReplyGetLen : ℕ :=
  match rep.type with
  | .string | .error | .array | .set | .map | .attribute => rep.len
  | _ => 0

def callReplyGetCollectionElement (idx perEntry : ℕ) : Option CallReply :=
  if idx ≥ rep.len * perEntry then none
  else match rep.val with
    | .array array => array[idx]?
    | _ => none

def callReplyGetArrayElement (idx : ℕ) : Option CallReply :=
  if rep.type ≠ .array then none else callReplyGetCollectionElement rep idx 1

def callReplyGetSetElement (idx : ℕ) : Option CallReply :=
  if rep.type ≠ .set then none else callReplyGetCollectionElement rep idx 1

/-- `callReplyGetMapElementInternal`: the key and the value, or `none` for `C_ERR`. -/
def callReplyGetMapElementInternal (idx : ℕ) (type : CallReplyType) :
    Option (Option CallReply × Option CallReply) :=
  if rep.type ≠ type then none
  else if idx ≥ rep.len then none
  else some (callReplyGetCollectionElement rep (idx * 2) 2,
    callReplyGetCollectionElement rep (idx * 2 + 1) 2)

def callReplyGetMapElement (idx : ℕ) : Option (Option CallReply × Option CallReply) :=
  callReplyGetMapElementInternal rep idx .map

def callReplyGetAttribute : Option CallReply := rep.attr

def callReplyGetAttributeElement (idx : ℕ) : Option (Option CallReply × Option CallReply) :=
  callReplyGetMapElementInternal rep idx .map

def callReplyGetBigNumber : Option Bytes :=
  if rep.type ≠ .bigNumber then none
  else match rep.val with
    | .str str => some (bytesAt buf str rep.len)
    | _ => none

/-- `callReplyGetVerbatim`: the string and the three bytes of its format. -/
def callReplyGetVerbatim : Option (Bytes × Bytes) :=
  if rep.type ≠ .verbatimString then none
  else match rep.val with
    | .verbatimStr str format => some (bytesAt buf str rep.len, bytesAt buf format 3)
    | _ => none

end RainCall
