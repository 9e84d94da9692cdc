import RainCall.Foundation.Schedule

/-!
# The GCRA rate limiter

`gcra.c`: `GCRA key max_burst tokens_per_period period [TOKENS count]` keeps the theoretical arrival
time of a key in microseconds, and lets the key expire when that time is over.

The arguments are the numbers the command has parsed. A `long long` computation whose result does
not fit is undefined behaviour, and the model has no value for it (`longLong`). A `double` is the
rational number it stands for, and every operation on doubles rounds its exact result
(`DoubleRounding`); the argument parser lets no NaN through, and the range check of the period no
infinity.
-/

namespace RainCall

/-- `LLONG_MAX`, which is also `LONG_MAX`. -/
def longLongMax : ℤ := 2 ^ 63 - 1

/-- A `long long` computation with the exact result `v`. -/
def longLong (v : ℤ) : Option ℤ := if -(2 ^ 63) ≤ v ∧ v < 2 ^ 63 then some v else none

structure DoubleRounding where
  round : ℚ → ℚ
  mono : Monotone round
  round_neg : ∀ x, round (-x) = -round x
  round_two_pow : ∀ k ≤ 63, round (2 ^ k) = 2 ^ k

/-- The conversion of a double to a `long long`, which drops the fraction. -/
def doubleToLongLong (x : ℚ) : Option ℤ := longLong (if x < 0 then ⌈x⌉ else ⌊x⌋)

/-- The value of a key: a theoretical arrival time in microseconds, or an object of another type. -/
inductive GcraValue where
  | gcra (tat : ℤ)
  | other
  deriving DecidableEq, Repr

/-- A key of the database, with its expire time in milliseconds (`-1` when it has none). -/
structure GcraKey where
  value : GcraValue
  expire : ℤ
  deriving DecidableEq, Repr

def keyIsExpired (kv : GcraKey) (now : ℤ) : Bool := ¬ kv.expire < 0 ∧ now > kv.expire

/-- `lookupKeyWriteWithLink`: an expired key is deleted first. -/
def lookupKeyWrite (db : Option GcraKey) (now : ℤ) : Option GcraKey :=
  db.filter fun kv => ¬ keyIsExpired kv now

/-- `activeExpireCycleTryExpire` of a key with an expire time: the expire cycle deletes it one
millisecond earlier than a lookup would. -/
def activeExpireCycleTryExpire (kv : GcraKey) (now : ℤ) : Option GcraKey :=
  if now < kv.expire then some kv else none

structure GcraArgs where
  maxBurst : ℤ
  tokensPerPeriod : ℤ
  period : ℚ
  numTokens : ℤ := 1

/-- The reply: an error, or the five numbers. -/
inductive GcraReply where
  | error (msg : String)
  | result (limited : Bool) (maxBurst remaining retryAfter resetAfter : ℤ)
  deriving DecidableEq, Repr

def gcraArgsError (args : GcraArgs) : Option String :=
  if args.maxBurst < 0 then some "value is out of range, must be positive"
  else if args.tokensPerPeriod < 1 then
    some "value is out of range, value must between 1 and 9223372036854775807"
  else if args.period ≤ 0 ∨ args.period ≥ 10 ^ 12 then some "period must be > 0 and < 1e12"
  else if args.numTokens < 1 then
    some "value is out of range, value must between 1 and 9223372036854775807"
  else none

/-- The emission interval in microseconds, from the period and the tokens allowed in it. -/
def emissionInterval (fp : DoubleRounding) (args : GcraArgs) : Option ℤ := do
  let periodUs := fp.round (args.period * 1000000)
  let perToken := fp.round (periodUs / fp.round args.tokensPerPeriod)
  let emission ← doubleToLongLong (fp.round (perToken + 1 / 2))
  pure (if emission = 0 then 1 else emission)

/-- `ceil(us / 1000000.)` as a `long long`. -/
def ceilSeconds (fp : DoubleRounding) (us : ℤ) : Option ℤ :=
  doubleToLongLong ⌈fp.round (fp.round us / 1000000)⌉

/-- The end of the command: the rest of the reply from the time to live. -/
def gcraFinish (fp : DoubleRounding) (db : Option GcraKey) (limited : Bool)
    (maxBurst emission variance ttl retryAfter : ℤ) : Option (Option GcraKey × GcraReply) := do
  let next ← longLong (variance - ttl)
  let negEmission ← longLong (-emission)
  let remaining := if next > negEmission then next.tdiv emission else 0
  let resetAfter ← ceilSeconds fp ttl
  pure (db, .result limited maxBurst remaining retryAfter resetAfter)

/-- The decision of the command, once all values are in range. -/
def gcraDecide (fp : DoubleRounding) (db : Option GcraKey) (now tat emission maxBurst variance
    increment newTat : ℤ) : Option (Option GcraKey × GcraReply) := do
  let allowAt ← longLong (newTat - variance)
  let diff ← longLong (now - allowAt)
  if diff < 0 then
    let retryAfter ← if increment ≤ variance then (longLong (-diff)).bind (ceilSeconds fp)
      else pure (-1)
    let ttl ← longLong (tat - now)
    gcraFinish fp db true maxBurst emission variance ttl retryAfter
  else
    let ttl ← longLong (newTat - now)
    gcraFinish fp (some ⟨.gcra newTat, newTat.tdiv 1000⟩) false maxBurst emission variance ttl (-1)

/-- The text of the overflow errors that name `TOKENS`. -/
def gcraTokensOverflow : String :=
  "GCRA limiting uses microsecond accuracy. Combination of period, tokens_per_period and " ++
    "TOKENS would cause an overflow"

/-- The text of the overflow error that names `max_burst`. -/
def gcraBurstOverflow : String :=
  "GCRA limiting uses microsecond accuracy. Combination of period, tokens_per_period and " ++
    "max_burst would cause an overflow"

/-- The command on the looked-up key, with its arrival time and the emission interval. -/
def gcraLimit (fp : DoubleRounding) (db : Option GcraKey)
    (now tat emission maxBurst numTokens : ℤ) :
    Option (Option GcraKey × GcraReply) :=
  if emission > longLongMax.tdiv numTokens then some (db, .error gcraTokensOverflow)
  else if emission > longLongMax.tdiv maxBurst then some (db, .error gcraBurstOverflow)
  else do
    let variance ← longLong (emission * maxBurst)
    let increment ← longLong (emission * numTokens)
    let base := if now > tat then now else tat
    let room ← longLong (longLongMax - base)
    if room < increment then some (db, .error gcraTokensOverflow)
    else
      let newTat ← longLong (base + increment)
      gcraDecide fp db now tat emission maxBurst variance increment newTat

/-- `getLongLongFromGCRAObject` at an existing key, or the current time when there is none; the
inner `none` is an object of the wrong type, and a negative time is a panic. -/
def gcraLoadTat (db : Option GcraKey) (now : ℤ) : Option (Option ℤ) :=
  match db.map GcraKey.value with
  | none => some (some now)
  | some .other => some none
  | some (.gcra tat) => if tat < 0 then none else some (some tat)

/-- One more than the burst, where that is a number. -/
def incrBurst (maxBurst : ℤ) : Option ℤ :=
  if maxBurst < longLongMax then longLong (maxBurst + 1) else some maxBurst

/-- `gcraCommand` at the command time `snapshot` in milliseconds. -/
def gcraCommand (fp : DoubleRounding) (db : Option GcraKey) (snapshot : ℤ) (args : GcraArgs) :
    Option (Option GcraKey × GcraReply) :=
  match gcraArgsError args with
  | some msg => some (db, .error msg)
  | none => do
    let maxBurst ← incrBurst args.maxBurst
    let now ← longLong (snapshot * 1000)
    let db := lookupKeyWrite db snapshot
    match ← gcraLoadTat db now with
    | none =>
      some (db, .error "WRONGTYPE Operation against a key holding the wrong kind of value")
    | some tat =>
      let emission ← emissionInterval fp args
      gcraLimit fp db now tat emission maxBurst args.numTokens

/-- `gcraSetValueCommand` with the parsed arrival time: the form in which the command is replicated.
A replica that executes a command of its master never takes a key for expired. -/
def gcraSetValueCommand (fromMaster : Bool) (db : Option GcraKey) (snapshot tat : ℤ) :
    Option GcraKey × String :=
  let db := if fromMaster then db else lookupKeyWrite db snapshot
  if db.map GcraKey.value = some .other then
    (db, "WRONGTYPE Operation against a key holding the wrong kind of value")
  else if tat < 0 then (db, "Invalid negative TaT value")
  else (some ⟨.gcra tat, tat.tdiv 1000⟩, "OK")

/-- The request was not limited. -/
def GcraReply.admitted : GcraReply → Bool
  | .result false _ _ _ _ => true
  | _ => false

/-- A call of the command. -/
structure GcraCall where
  snapshot : ℤ
  args : GcraArgs

/-- The calls in turn on one key: their replies. -/
def gcraRun (fp : DoubleRounding) : Option GcraKey → List GcraCall → Option (List GcraReply)
  | _, [] => some []
  | db, call :: calls => do
    let r ← gcraCommand fp db call.snapshot call.args
    let replies ← gcraRun fp r.1 calls
    pure (r.2 :: replies)

/-- The admitted requests: the time in microseconds and the number of tokens of each. -/
def gcraAdmitted (calls : List GcraCall) (replies : List GcraReply) : List (ℤ × ℤ) :=
  ((calls.zip replies).filter fun p => p.2.admitted).map fun p =>
    (p.1.snapshot * 1000, p.1.args.numTokens)

/-- What a master does to the key: GCRA, the expire cycle, `SET` with an expire time and `DEL`. -/
inductive GcraMasterOp where
  | gcra (args : GcraArgs)
  | expireCycle
  | set (expire : ℤ)
  | del

/-- A command of the replication stream. -/
inductive GcraReplicated where
  | gcraSetValue (tat : ℤ)
  | set (expire : ℤ)
  | del
  deriving DecidableEq, Repr

/-- `propagateDeletion`, if the lookup has deleted the key. -/
def propagateDeletion (db looked : Option GcraKey) : List GcraReplicated :=
  if looked = db then [] else [.del]

/-- The master at its time: the key, and what is propagated. The deletion by a lookup is propagated
before the command itself. -/
def gcraPropagate (fp : DoubleRounding) (db : Option GcraKey) :
    ℤ × GcraMasterOp → Option (Option GcraKey × List GcraReplicated)
  | (snapshot, .gcra args) => do
    let (db', reply) ← gcraCommand fp db snapshot args
    -- the key is looked up after the arguments were checked
    let looked := if gcraArgsError args = none then lookupKeyWrite db snapshot else db
    let deletion := propagateDeletion db looked
    -- only an admitted request makes the server dirty, and it is rewritten with the stored time
    match reply.admitted, db' with
    | true, some ⟨.gcra tat, _⟩ => some (db', deletion ++ [.gcraSetValue tat])
    | _, _ => some (db', deletion)
  | (now, .expireCycle) =>
    let db' := db.bind fun kv =>
      if kv.expire < 0 then some kv else activeExpireCycleTryExpire kv now
    some (db', propagateDeletion db db')
  | (snapshot, .set expire) =>
    some (some ⟨.other, expire⟩,
      propagateDeletion db (lookupKeyWrite db snapshot) ++ [.set expire])
  | (_, .del) => some (none, propagateDeletion db none)

/-- The master with the replication stream so far. -/
def gcraMasterStep (fp : DoubleRounding) (s : Option GcraKey × List GcraReplicated)
    (op : ℤ × GcraMasterOp) : Option (Option GcraKey × List GcraReplicated) := do
  let (db, commands) ← gcraPropagate fp s.1 op
  some (db, s.2 ++ commands)

/-- A replica executes a command of its master at its own time, none if it replies an error. -/
def gcraReplicaStep (db : Option GcraKey) : ℤ × GcraReplicated → Option (Option GcraKey)
  | (snapshot, .gcraSetValue tat) =>
    let (db, reply) := gcraSetValueCommand true db snapshot tat
    if reply = "OK" then some db else none
  | (_, .set expire) => some (some ⟨.other, expire⟩)
  | (_, .del) => some none

end RainCall
