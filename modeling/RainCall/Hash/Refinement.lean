import RainCall.Hash.Spec
import RainCall.Foundation.Run

/-!
# A hash object refines a map with expiry times

Whatever sequence of updates and conversions a hash object goes through, under limits that may
change between any two of them, its lookup functions return what a plain map from fields to values
and expiry times returns after the same updates. Along the way the object keeps the invariant of its
encoding.
-/

namespace RainCall

/-- The operations on a hash object. `setEx` is `hashTypeSetExInit` followed by `hashTypeSetEx`. -/
inductive HashOp
  | set (f v : Bytes) (keepTtl : Bool)
  | delete (f : Bytes)
  | setEx (now : ℕ) (cond : ExpireSetCond) (f : Bytes) (expireAt : Option ℕ)
  | tryConversion (args : List Bytes)
  | convert (enc : HashEncoding)
deriving DecidableEq, Repr

/-- One operation on an object of a master, under the configuration of the moment. -/
def hashStep (o : HashObj) (op : HashConfig × HashOp) : Option HashObj :=
  match op.2 with
  | .set f v keepTtl => Prod.fst <$> hashTypeSet op.1 o f v keepTtl
  | .delete f => Prod.fst <$> hashTypeDelete o f
  | .setEx now cond f expireAt => do
    let o ← hashTypeSetExInit o
    Prod.fst <$> hashTypeSetEx op.1 ⟨now, true⟩ o cond f expireAt
  | .tryConversion args => hashTypeTryConversion op.1 o args
  | .convert enc => hashTypeConvert o enc

/-- What an option of the `HEXPIRE` family asks for, where `prev` is the expiry time of the field
and `t` the new one. A field without an expiry time never expires, so no time is greater than its.
-/
def ExpireSetCond.Holds (prev : Option ℕ) (t : ℕ) : ExpireSetCond → Prop
  | .always => True
  | .nx => prev = none
  | .xx => prev ≠ none
  | .gt => ∃ p ∈ prev, p < t
  | .lt => ∀ p ∈ prev, t < p

instance ExpireSetCond.Holds.decidable (prev : Option ℕ) (t : ℕ) : ∀ cond : ExpireSetCond,
    Decidable (cond.Holds prev t)
  | .always => isTrue trivial
  | .nx => inferInstanceAs (Decidable (prev = none))
  | .xx => inferInstanceAs (Decidable (prev ≠ none))
  | .gt => inferInstanceAs (Decidable (∃ p ∈ prev, p < t))
  | .lt => inferInstanceAs (Decidable (∀ p ∈ prev, t < p))

/-- The code's test of the options. -/
lemma ExpireSetCond.allows_iff {cond : ExpireSetCond} {prev : Option ℕ} {t : ℕ} :
    cond.allows prev t = true ↔ cond.Holds prev t := by
  cases prev <;> cases cond <;> simp [allows, Holds]

/-- The same operation on a plain map. -/
def plainStep (m : TtlMap) (op : HashConfig × HashOp) : TtlMap :=
  match op.2 with
  | .set f v keepTtl =>
      Function.update m f (some (v, if keepTtl then (m f).bind Prod.snd else none))
  | .delete f => Function.update m f none
  | .setEx _ cond f expireAt =>
    match m f, expireAt with
    | none, _ => m
    | some (v, _), none => Function.update m f (some (v, none))
    | some (v, prev), some t =>
      if cond.Holds prev t then Function.update m f (some (v, some t)) else m
  | .tryConversion _ => m
  | .convert _ => m

/-- The operations a caller may use: expiry times lie in the future and are at most
`EB_EXPIRE_TIME_MAX`, and an object is converted to an encoding that `hashTypeConvert` supports for
it. -/
def HashOp.Admissible (o : HashObj) (op : HashConfig × HashOp) : Prop :=
  match op.2 with
  | .setEx now _ _ (some t) => now < t ∧ t ≤ ebExpireTimeMax
  | .convert enc => o.ConvertsTo enc
  | _ => True

instance HashObj.ConvertsTo.decidable : ∀ (o : HashObj) (enc : HashEncoding),
    Decidable (o.ConvertsTo enc)
  | .listpack _, _ => isTrue trivial
  | .listpackEx _, enc => inferInstanceAs (Decidable (enc ≠ .listpack))
  | .ht _, _ => isFalse id

instance HashOp.Admissible.decidable : ∀ (o : HashObj) (op : HashConfig × HashOp),
    Decidable (HashOp.Admissible o op)
  | _, (_, .set ..) => isTrue trivial
  | _, (_, .delete _) => isTrue trivial
  | _, (_, .setEx _ _ _ none) => isTrue trivial
  | _, (_, .setEx now _ _ (some t)) =>
    inferInstanceAs (Decidable (now < t ∧ t ≤ ebExpireTimeMax))
  | _, (_, .tryConversion _) => isTrue trivial
  | o, (_, .convert enc) => HashObj.ConvertsTo.decidable o enc

/-- The invariant of the encodings: the triples of a listpack are sorted by expiry time, and the
ebuckets of a dict hold exactly the entries with an expiry time. -/
def HashObj.WF : HashObj → Prop
  | .listpack lp => ∃ ps, lp = pairRecords.flat ps ∧ (ps.map Prod.fst).Nodup
  | .listpackEx lp => ∃ ts, lp = tripleRecords.flat ts ∧ SortedTriples ts
  | .ht h => h.WF

lemma HashObj.Holds.wf {o : HashObj} {m : TtlMap} (h : o.Holds m) : o.WF := by
  cases o with
  | listpack lp =>
    obtain ⟨ps, hlp, hps, -⟩ := h
    exact ⟨ps, hlp, hps⟩
  | listpackEx lp =>
    obtain ⟨ts, hlp, hts, -⟩ := h
    exact ⟨ts, hlp, hts⟩
  | ht t => exact h.1

/-- For a time in the future the encoding does not matter. -/
lemma ttlSetEx_future {isHT : Bool} {m : TtlMap} {now : ℕ} {cond : ExpireSetCond} {f : Bytes}
    {expireAt : Option ℕ} (hfuture : ∀ t, expireAt = some t → now < t) (cfg : HashConfig) :
    (ttlSetEx isHT ⟨now, true⟩ m cond f expireAt).1 =
      plainStep m (cfg, .setEx now cond f expireAt) := by
  cases hf : m f with
  | none => simp [ttlSetEx, plainStep, hf]
  | some x =>
    obtain ⟨v, prev⟩ := x
    cases expireAt with
    | none =>
      cases prev with
      | none =>
        simp only [ttlSetEx, plainStep, hf]
        rw [eq_comm, Function.update_eq_self_iff, hf]
      | some _ => simp [ttlSetEx, plainStep, hf]
    | some t =>
      have hlt := hfuture t rfl
      have hpast : HashCtx.alreadyExpired ⟨now, true⟩ t = false := by
        simp [HashCtx.alreadyExpired, hlt]
      rw [ttlSetEx_some_of_not_expired hf hpast]
      simp only [plainStep, hf, ExpireSetCond.allows_iff]
      split_ifs <;> rfl

lemma hashStep_refines (o : HashObj) (m : TtlMap) (op : HashConfig × HashOp)
    (hadm : HashOp.Admissible o op) (h : o.Holds m) :
    ∃ o', hashStep o op = some o' ∧ o'.Holds (plainStep m op) := by
  obtain ⟨cfg, op⟩ := op
  cases op with
  | set f v keepTtl =>
    obtain ⟨o', hset, h', -⟩ := h.set cfg f v keepTtl
    exact ⟨o', by simp [hashStep, hset], h'⟩
  | delete f =>
    obtain ⟨o', hdelete, h', -⟩ := h.delete f
    exact ⟨o', by simp [hashStep, hdelete], h'⟩
  | setEx now cond f expireAt =>
    have htime : ∀ t, expireAt = some t → now < t ∧ t ≤ ebExpireTimeMax := by
      rintro t rfl
      exact hadm
    obtain ⟨o1, hinit, h1, hsupp1, -⟩ := h.setExInit
    obtain ⟨o', hset, h', -⟩ :=
      h1.setEx hsupp1 cfg ⟨now, true⟩ cond f (.inl rfl) fun t ht => (htime t ht).2
    rw [ttlSetEx_future (fun t ht => (htime t ht).1) cfg] at h'
    exact ⟨o', by simp [hashStep, hinit, hset], h'⟩
  | tryConversion args =>
    obtain ⟨o', hconv, h', -⟩ := h.tryConversion cfg args
    exact ⟨o', hconv, h'⟩
  | convert enc =>
    obtain ⟨o', hconv, h', -⟩ := h.convert hadm
    exact ⟨o', hconv, h'⟩

/-- A hash object refines a map from fields to values and expiry times. -/
theorem hashObject_refines_map (ops : List (HashConfig × HashOp))
    (hadm : RunSatisfies hashStep HashOp.Admissible createHashObject ops) :
    ∃ o, runSteps hashStep createHashObject ops = some o ∧ o.WF ∧
      ∀ f, hashTypeGet o f = some (ops.foldl plainStep (fun _ => none) f) := by
  have hcreate : createHashObject.Holds fun _ => none := ⟨[], rfl, List.nodup_nil, rfl⟩
  obtain ⟨o, hrun, h⟩ :=
    hadm.simulation plainStep HashObj.Holds
      (fun o m op hop h => hashStep_refines o m op hop h) hcreate
  exact ⟨o, hrun, h.wf, h.hashTypeGet⟩

/-- A field gets an expiry time in a listpack, keeps it in a dict and loses it again. -/
theorem hashObject_refines_map_conversion :
    let large : HashConfig := ⟨128, 64, List.length, fun _ _ => true⟩
    let small : HashConfig := ⟨0, 64, List.length, fun _ _ => true⟩
    let ops : List (HashConfig × HashOp) :=
      [(large, .set [97] [49] false), (large, .setEx 10 .nx [97] (some 20)),
        (large, .set [98] [50] false), (small, .set [97] [51] true),
        (small, .setEx 12 .gt [98] (some 30)), (large, .setEx 12 .lt [97] (some 15)),
        (large, .setEx 13 .always [97] none)]
    ∃ o, runSteps hashStep createHashObject ops = some o ∧ o.WF ∧
      ∀ f, hashTypeGet o f = some (ops.foldl plainStep (fun _ => none) f) :=
  hashObject_refines_map _ (by decide +kernel)

end RainCall
