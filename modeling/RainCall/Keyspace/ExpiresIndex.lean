import RainCall.Keyspace.OpsSpec
import RainCall.Foundation.Run

/-!
# The index of expire times over whole runs

After any run of the key API and of RENAME, MOVE and COPY, `expires` holds exactly the pointers to
the objects with an expire time, every key has the TTL that was assigned to it last and not cleared
since, and the histogram counts the keys (`expires_index_exact`).

The expire time `-1` is taken: it is what the slot of a key without a TTL holds. A replica accepts
it, as it accepts any time in the past, and then `expires` has a key without a TTL; the next time is
refused by an assertion. And an overwrite in place clears the TTL only if it is not negative.
-/

namespace RainCall

open Finmap KeyMap Keyspace Option RedisObject

variable {V : Type} (cfg : KeyspaceConfig V)

/-! ### Lookups -/

/-- The entry has expired. -/
def KeyspaceCtx.entryExpired (ctx : KeyspaceCtx) (e : KeyEntry V) : Bool :=
  ctx.keyIsExpired (e.ttl.getD (-1))

/-- The entry that a lookup finds. -/
def KeyMap.live (ctx : KeyspaceCtx) (K : KeyMap V) (d : ℕ) (k : Bytes) :
    Option (KeyEntry V) :=
  (K d k).filter fun e => !ctx.entryExpired e

/-- The entries after a lookup, which deletes an expired key unless it is for reading on a
replica. -/
def KeyMap.afterLookup (ctx : KeyspaceCtx) (K : KeyMap V) (d : ℕ) (k : Bytes) (write : Bool) :
    KeyMap V :=
  if (K d k).any ctx.entryExpired ∧ ¬ (ctx.masterhost ∧ ¬ write) then K.set d k none else K

/-- After a lookup for writing the key has the entry that was found. -/
lemma KeyMap.afterLookup_self (ctx : KeyspaceCtx) (K : KeyMap V) (d : ℕ) (k : Bytes) :
    K.afterLookup ctx d k true d k = K.live ctx d k := by
  unfold afterLookup live
  cases he : K d k with
  | none => simp [he]
  | some e => by_cases hx : ctx.entryExpired e <;> simp [hx, he, filter_some]

variable {d : ℕ} {k : Bytes} {o : RedisObject V} {e : KeyEntry V} {s : Keyspace V}
  {held : Option Addr} {K : KeyMap V} {a : Addr}

lemma KeyMap.afterLookup_of_ne (ctx : KeyspaceCtx) (K : KeyMap V) {d' : ℕ} {k' : Bytes}
    (write : Bool) (hk : ¬ (d' = d ∧ k' = k)) :
    K.afterLookup ctx d k write d' k' = K d' k' := by
  unfold afterLookup
  split_ifs
  · exact set_of_ne K none hk
  · rfl

/-- `-1` is no TTL. -/
lemma ttlOfExpire_ne (expire : ℤ) : ttlOfExpire expire ≠ some (-1) := by
  unfold ttlOfExpire
  split_ifs with h
  · simp
  · simpa using h

lemma RedisObject.Stores.getExpire (h : o.Stores k e) : kvobjGetExpire o = e.ttl.getD (-1) := by
  rw [← h.ttl_eq]
  unfold ttlOfExpire
  split_ifs with ht <;> simp [ht]

/-- `lookupKey` finds the live entry. It leaves the state alone or deletes the key. -/
lemma Keyspace.Holds.lookupKey (h : s.Holds cfg held K) (ctx : KeyspaceCtx) (d : ℕ) (k : Bytes)
    (write : Bool) :
    ∃ r s', s.lookupKey cfg ctx d k write = some (r, s') ∧
      s'.Holds cfg held (K.afterLookup ctx d k write) ∧ (s' = s ∨ s.Deletes s' d k) ∧
      (r = none → K.live ctx d k = none) ∧
      ∀ a, r = some a → s' = s ∧ (s.db d).keys.lookup k = some a ∧ K.live ctx d k = K d k ∧
        K.afterLookup ctx d k write = K ∧ ∃ o e, s.heap.lookup a = some o ∧ K d k = some e ∧
          o.Stores k e ∧ (held ≠ some a → o.Retainable) := by
  unfold Keyspace.lookupKey
  cases ha : (s.db d).keys.lookup k with
  | none =>
    have hK : K d k = none := h.indexes.absent ha
    have hafter : K.afterLookup ctx d k write = K := by simp [KeyMap.afterLookup, hK]
    exact ⟨none, s, rfl, hafter.symm ▸ h, .inl rfl, fun _ => by simp [KeyMap.live, hK], by simp⟩
  | some a =>
    obtain ⟨o, e, ho, he, hst, hre⟩ := h.indexes.stored ha
    simp only [ho, bind_eq_bind, bind_some, hst.getExpire]
    have hx : ctx.keyIsExpired (e.ttl.getD (-1)) = ctx.entryExpired e := rfl
    by_cases hexp : ctx.entryExpired e
    · rw [hx, if_pos hexp]
      have hlive : K.live ctx d k = none := by simp [KeyMap.live, he, hexp]
      by_cases hread : ctx.masterhost ∧ ¬ write
      · have hafter : K.afterLookup ctx d k write = K := by
          rw [KeyMap.afterLookup, if_neg fun hc => hc.2 hread]
        rw [if_pos hread]
        exact ⟨none, s, rfl, hafter.symm ▸ h, .inl rfl, fun _ => hlive, by simp⟩
      · have hafter : K.afterLookup ctx d k write = K.set d k none := by
          rw [KeyMap.afterLookup, if_pos ⟨by simp [he, hexp], hread⟩]
        obtain ⟨s', hs', hh', hdel⟩ := h.dbDelete cfg d k
        rw [if_neg hread, hs']
        exact ⟨none, s', rfl, hafter.symm ▸ hh', .inr hdel, fun _ => hlive, by simp⟩
    · rw [hx, if_neg hexp]
      have hafter : K.afterLookup ctx d k write = K := by
        simp [KeyMap.afterLookup, he, hexp]
      refine ⟨some a, s, rfl, hafter.symm ▸ h, .inl rfl, by simp, ?_⟩
      rintro a' ⟨⟩
      exact ⟨rfl, rfl, by simp [KeyMap.live, he, hexp], hafter, o, e, ho, he, hst, hre⟩

/-! ### Value objects and references -/

lemma Keyspace.Holds.createObject (h : s.Holds cfg held K) (v : RedisObject V) :
    (RainCall.createObject cfg s v).2.Holds cfg held K ∧
      (RainCall.createObject cfg s v).2.heap.lookup (RainCall.createObject cfg s v).1 = some v ∧
      (RainCall.createObject cfg s v).2.Unowned (RainCall.createObject cfg s v).1 := by
  have hu : s.Unowned (cfg.malloc s.heap) :=
    h.indexes.unowned_of_notMem (cfg.malloc_notMem s.heap)
  refine ⟨⟨h.indexes.of_heap fun d k a ha => ?_, h.counts.of_heap _⟩, lookup_insert _, hu⟩
  exact lookup_insert_of_ne _ (hu.ne ha)

/-- The object of a key. -/
def Keyspace.object (s : Keyspace V) (d : ℕ) (k : Bytes) : Option (RedisObject V) :=
  ((s.db d).keys.lookup k).bind s.heap.lookup

/-- A new object does not change the object of a key. -/
lemma Keyspace.Holds.object_createObject (h : s.Holds cfg held K) (v : RedisObject V) (d : ℕ)
    (k : Bytes) :
    (RainCall.createObject cfg s v).2.object d k = s.object d k := by
  have hu : s.Unowned (cfg.malloc s.heap) :=
    h.indexes.unowned_of_notMem (cfg.malloc_notMem s.heap)
  unfold object RainCall.createObject
  cases ha : (s.db d).keys.lookup k with
  | none => rfl
  | some a => exact lookup_insert_of_ne _ (hu.ne ha)

/-- The object of a key is stored with another reference count. -/
lemma Keyspace.Indexes.recount {held' : Option ℕ} (h : s.Indexes held K)
    (ha : (s.db d).keys.lookup k = some a) (he : K d k = some e) (hst : o.Stores k e)
    (hre : held' ≠ some a → o.Retainable)
    (hheld : ∀ a1, a1 ≠ a → held' ≠ some a1 → held ≠ some a1) :
    Keyspace.Indexes { s with heap := s.heap.insert a o } held' K := by
  rw [← set_eq_self K d k, he]
  refine h.replace (some a) (lookup_same RedisDb.keys s ha) ?_ ?_ (by simp) ?_
  · refine lookup_same RedisDb.expires s ?_
    rw [h.expires, he, ha]
  · rintro a1 ⟨⟩
    exact ⟨o, e, lookup_insert _, rfl, hst, hre⟩
  · intro d' k' a1 hk ha1
    have hne : a1 ≠ a := h.ne_of_other ha hk ha1
    exact ⟨fun heq => hne (some.inj heq).symm, lookup_insert_of_ne _ hne, hheld a1 hne⟩

/-- The object of a key is given another reference. -/
lemma Keyspace.Holds.retain (h : s.Holds cfg none K) (ha : (s.db d).keys.lookup k = some a)
    (ho : s.heap.lookup a = some o) :
    incrRefCount s.heap a = some (s.heap.insert a { o with refcount := o.refcount + 1 }) ∧
      Keyspace.Holds cfg { s with heap := s.heap.insert a { o with refcount := o.refcount + 1 } }
        (some a) K := by
  obtain ⟨e, he, hst, hre⟩ := h.indexes.entry_of_lookup ha ho
  have hre := hre (by simp)
  have hlt := hre.refcount_lt
  refine ⟨?_, ?_, h.counts.of_heap _⟩
  · unfold incrRefCount
    simp only [ho, bind_eq_bind, bind_some]
    rw [if_pos (by omega)]
  · have hst' : RedisObject.Stores { o with refcount := o.refcount + 1 } k e :=
      ⟨hst.key_eq, hst.type_eq, hst.ptr_eq, hst.ttl_eq, Nat.succ_pos _⟩
    exact h.indexes.recount ha he hst' (fun hne => absurd rfl hne) (by simp)

/-- The reference is dropped again. -/
lemma Keyspace.Holds.release (h : s.Holds cfg (some a) K) (ha : (s.db d).keys.lookup k = some a)
    (ho : s.heap.lookup a = some { o with refcount := o.refcount + 1 }) (hre : o.Retainable) :
    decrRefCount s.heap a = some (s.heap.insert a o) ∧
      Keyspace.Holds cfg { s with heap := s.heap.insert a o } none K := by
  obtain ⟨e, he, hst, -⟩ := h.indexes.entry_of_lookup ha ho
  refine ⟨decrRefCount_retained hre ho, ?_, h.counts.of_heap _⟩
  have hst' : o.Stores k e := ⟨hst.key_eq, hst.type_eq, hst.ptr_eq, hst.ttl_eq, hre.refcount_pos⟩
  exact h.indexes.recount ha he hst' (fun _ => hre) fun a1 hne _ heq =>
    hne (some.inj heq).symm

/-- An object that is stored nowhere need not be excepted. -/
lemma Keyspace.Holds.of_unowned (h : s.Holds cfg (some a) K) (hu : s.Unowned a) :
    s.Holds cfg none K := by
  refine ⟨⟨fun {d k a1} ha1 => ?_, h.indexes.absent, h.indexes.injective, h.indexes.expires⟩,
    h.counts⟩
  obtain ⟨o, e, ho, he, hst, hre⟩ := h.indexes.stored ha1
  exact ⟨o, e, ho, he, hst, fun _ => hre fun heq => hu.ne ha1 (some.inj heq).symm⟩

lemma RedisObject.Stores.keyMetaOnTransfer (h : o.Stores k e) :
    RainCall.keyMetaOnTransfer o = e.ttl := by
  rw [← h.ttl_eq]
  unfold RainCall.keyMetaOnTransfer ttlOfExpire kvobjGetExpire
  cases o.expire with
  | none => rfl
  | some t => by_cases ht : t = -1 <;> simp [ht]

/-- A stored TTL is never `-1`. -/
lemma RedisObject.Stores.ttl_ne (h : o.Stores k e) : e.ttl ≠ some (-1) := by
  rw [← h.ttl_eq]
  unfold ttlOfExpire
  split_ifs with ht
  · simp
  · exact fun heq => ht (some.inj heq)

/-- The rest of RENAME and MOVE: the object at `o`, which was given another reference, is deleted
from its database and added under the new key. -/
lemma Keyspace.Holds.transfer {o : Addr} (h : s.Holds cfg (some o) K) {src dst : ℕ}
    {key newkey : Bytes} {ob : RedisObject V} (ha : (s.db src).keys.lookup key = some o)
    (hre : ob.Retainable) (ho : s.heap.lookup o = some { ob with refcount := ob.refcount + 1 })
    (he : K src key = some e) (hnew : K dst newkey = none) :
    ∃ s1 s', RainCall.dbDelete cfg s src key = some s1 ∧
      RainCall.dbAddInternal cfg s1 dst newkey o e.ttl = some s' ∧
      s'.Holds cfg none ((K.set src key none).set dst newkey (some e)) := by
  obtain ⟨e', he', hst, -⟩ := h.indexes.entry_of_lookup ha ho
  rw [he] at he'
  cases he'
  obtain ⟨s1, hs1, hh1, hdel⟩ := h.dbDelete cfg src key
  have ho1 : s1.heap.lookup o = some ob := hdel.retained o ob ha hre ho
  have hu1 : s1.Unowned o := by
    intro d' k' hlookup
    rw [hdel.keys] at hlookup
    split_ifs at hlookup with hk
    exact h.indexes.ne_of_other ha hk hlookup rfl
  have hnone : K.set src key none dst newkey = none := by
    rw [set_apply]
    split_ifs
    · rfl
    · exact hnew
  have hptr : ob.ptr = some e.value := hst.ptr_eq
  obtain ⟨s', hs', hh'⟩ := (hh1.of_unowned cfg hu1).dbAddInternal cfg hnone ho1 hre.toSharable hptr
    hu1 hst.ttl_ne
  have htype : ob.type = e.type := hst.type_eq
  rw [htype] at hh'
  exact ⟨s1, s', hs1, hs', hh'⟩

/-! ### The commands -/

/-- The entry that a value object becomes. -/
def RedisObject.entry (v : RedisObject V) (ttl : Option ℤ) : Option (KeyEntry V) :=
  v.ptr.map fun value => ⟨v.type, value, ttl⟩

/-- The object can be passed as a value. -/
def RedisObject.isValue (v : RedisObject V) : Bool :=
  v.ptr.isSome ∧ 0 < v.refcount ∧ (v.refcount = 1 ∨
    v.type = .string ∧ (v.encoding = .int ∨ v.encoding = .raw ∨ v.encoding = .embstr))

lemma RedisObject.isValue_spec {v : RedisObject V} (h : v.isValue) :
    v.Sharable ∧ ∃ ptr, v.ptr = some ptr ∧ ∀ ttl, v.entry ttl = some ⟨v.type, ptr, ttl⟩ := by
  simp only [isValue, decide_eq_true_eq] at h
  obtain ⟨hptr, hpos, hcopy⟩ := h
  obtain ⟨ptr, hptr⟩ := isSome_iff_exists.mp hptr
  exact ⟨⟨hpos, hcopy⟩, ptr, hptr, fun ttl => by rw [entry, hptr, map_some]⟩

/-- What the options of EXPIRE ask for, where `ttl` is the TTL of the key and `time` the new one: NX
for no TTL, XX for some TTL, GT for an earlier one, and LT for no TTL or a later one. -/
def ExpireFlags.Holds (f : ExpireFlags) (ttl : Option ℤ) (time : ℤ) : Prop :=
  (f.nx → ttl = none) ∧ (f.xx → ttl ≠ none) ∧ (f.gt → ∃ t ∈ ttl, t < time) ∧
    (f.lt → ∀ t ∈ ttl, time < t)

instance ExpireFlags.Holds.decidable (f : ExpireFlags) (ttl : Option ℤ) (time : ℤ) :
    Decidable (f.Holds ttl time) :=
  inferInstanceAs (Decidable (_ ∧ _))

/-- The code's tests of the options. -/
lemma ExpireFlags.allow_iff {f : ExpireFlags} {ttl : Option ℤ} {time : ℤ} (h : ttl ≠ some (-1)) :
    f.allow (ttl.getD (-1)) time ↔ f.Holds ttl time := by
  obtain ⟨nx, xx, gt, lt⟩ := f
  cases ttl with
  | none => simp [allow, Holds]
  | some t =>
    have ht : t ≠ -1 := fun heq => h (heq ▸ rfl)
    cases gt <;> cases lt <;> simp [allow, Holds, ht]

/-- The time that the argument of EXPIRE stands for, in milliseconds: all times are 64-bit numbers,
and a command whose time is not changes nothing. -/
def KeyspaceCtx.assignedTime (ctx : KeyspaceCtx) (param : ℤ) (relative seconds : Bool) :
    Option ℤ :=
  let ms := if seconds then param * 1000 else param
  let time := ms + if relative then ctx.now else 0
  if (seconds → -(2 ^ 63) ≤ ms ∧ ms < 2 ^ 63) ∧ time < 2 ^ 63 then some time else none

/-- The overflow checks of the code. -/
lemma KeyspaceCtx.expireTime_eq (ctx : KeyspaceCtx) (param : ℤ) (relative seconds : Bool) :
    ctx.expireTime param relative seconds = ctx.assignedTime param relative seconds := by
  have hval : (llongMax : ℤ) = 2 ^ 63 - 1 := by decide
  unfold expireTime assignedTime
  simp only [hval]
  cases seconds <;> simp <;> split_ifs <;> first | rfl | omega

/-- What the operations do to the entries. -/
def keySpecStep (K : KeyMap V) : KeyspaceCtx × KeyspaceOp V → KeyMap V
  | (_, .dbAdd d key val) => K.set d key (val.entry none)
  | (ctx, .setKey d key val keepTTL) =>
    let K₁ := K.afterLookup ctx d key true
    K₁.set d key (val.entry (if keepTTL then (K₁ d key).bind KeyEntry.ttl else none))
  | (_, .dbReplaceValue d key val _) =>
    K.set d key (val.entry ((K d key).bind KeyEntry.ttl))
  | (ctx, .expire d key param relative seconds flags) =>
    if ¬ flags.compatible then K else
    match ctx.assignedTime param relative seconds with
    | none => K
    | some time =>
      let K₁ := K.afterLookup ctx d key true
      match K₁ d key with
      | none => K₁
      | some e =>
        if ¬ flags.Holds e.ttl time then K₁
        -- a master deletes the key at once if the time has passed
        else if time ≤ ctx.now ∧ ¬ ctx.masterhost then K₁.set d key none
        else K₁.set d key (some { e with ttl := some time })
  | (_, .removeExpire d key) => K.set d key ((K d key).map fun e => { e with ttl := none })
  | (_, .dbGenericDelete d key) => K.set d key none
  | (ctx, .rename d src dst nx) =>
    let K₁ := K.afterLookup ctx d src true
    match K₁ d src with
    | none => K₁
    | some e =>
      if src = dst then K₁ else
        let K₂ := K₁.afterLookup ctx d dst true
        if (K₂ d dst).isSome ∧ nx then K₂ else (K₂.set d src none).set d dst (some e)
  | (ctx, .move src key dst) =>
    if cfg.dbnum ≤ dst ∨ src = dst then K else
      let K₁ := K.afterLookup ctx src key true
      match K₁ src key with
      | none => K₁
      | some e =>
        let K₂ := K₁.afterLookup ctx dst key true
        if (K₂ dst key).isSome then K₂ else (K₂.set src key none).set dst key (some e)
  | (ctx, .copy src key dst newkey replace moduleDup) =>
    if cfg.dbnum ≤ dst ∨ src = dst ∧ key = newkey then K else
      let K₁ := K.afterLookup ctx src key false
      match K.live ctx src key with
      | none => K₁
      | some e =>
        let K₂ := K₁.afterLookup ctx dst newkey true
        if (K₂ dst newkey).isSome ∧ ¬ replace then K₂
        else if e.type = .module ∧ ¬ moduleDup then K₂
        else K₂.set dst newkey (some e)

/-- The callers of the key API keep its preconditions: values can be copied or taken, `dbAdd` is for
a new key and `dbReplaceValue` for an existing one, whose length is not changed behind the back of
the histogram. -/
def KeyspaceOp.admissible (s : Keyspace V) : KeyspaceOp V → Bool
  | .dbAdd d key val => (s.object d key).isNone ∧ val.isValue
  | .setKey _ _ val _ => val.isValue
  | .dbReplaceValue d key val updateKeySizes =>
    val.isValue ∧ (s.object d key).any fun old => updateKeySizes ∨
      old.type = val.type ∧ getObjectLength cfg old = getObjectLength cfg val
  | _ => true

/-- The expire time `-1` is not assigned on a replica, and a negative one is not overwritten in
place by a `setKey` that should clear it. -/
def keepsTtl (s : Keyspace V) : KeyspaceCtx × KeyspaceOp V → Bool
  | (ctx, .expire _ _ param relative seconds _) =>
    ctx.masterhost → ctx.expireTime param relative seconds ≠ some (-1)
  | (_, .setKey d key val keepTTL) =>
    keepTTL ∨ (s.object d key).all fun old => ¬ old.swappable val ∨ -1 ≤ kvobjGetExpire old
  | _ => true

lemma Keyspace.Indexes.object_eq (h : s.Indexes held K) (he : K d k = some e) :
    ∃ o, s.object d k = some o ∧ o.Stores k e := by
  obtain ⟨a, o, ha, ho, hst, -⟩ := h.lookup_of_some he
  exact ⟨o, by rw [object, ha, bind_some, ho], hst⟩

lemma Keyspace.Indexes.object_eq_none (h : s.Indexes held K) (hnone : s.object d k = none) :
    K d k = none := by
  cases he : K d k with
  | none => rfl
  | some e =>
    obtain ⟨o, ho, -⟩ := h.object_eq he
    rw [ho] at hnone
    cases hnone

/-- The deletion of a key does not touch an object that is stored nowhere. -/
lemma Keyspace.Deletes.unowned {s' : Keyspace V} {v : RedisObject V} (h : s.Deletes s' d k)
    (hval : s.heap.lookup a = some v) (hu : s.Unowned a) :
    s'.heap.lookup a = some v ∧ s'.Unowned a := by
  refine ⟨(h.heap a (hu d k)).trans hval, fun d' k' hlookup => ?_⟩
  rw [h.keys] at hlookup
  split_ifs at hlookup with hk
  exact hu d' k' hlookup

lemma Keyspace.Holds.setKey (h : s.Holds cfg none K) (ctx : KeyspaceCtx) (d : ℕ) (k : Bytes)
    {v : RedisObject V} (hv : v.isValue) {keepTTL : Bool}
    (hneg : keepsTtl s (ctx, .setKey d k v keepTTL)) :
    ∃ s', RainCall.setKey cfg ctx (RainCall.createObject cfg s v).2 d k
        (RainCall.createObject cfg s v).1 keepTTL = some s' ∧
      s'.Holds cfg none (keySpecStep cfg K (ctx, .setKey d k v keepTTL)) := by
  obtain ⟨hshare, ptr, hptr, hentry⟩ := isValue_spec hv
  obtain ⟨hh1, hval1, hu1⟩ := h.createObject cfg v
  have hobj := h.object_createObject cfg v d k
  set s1 := (RainCall.createObject cfg s v).2
  set val := (RainCall.createObject cfg s v).1
  obtain ⟨r, s2, hs2, hh2, hchange, hnone, hsome⟩ := hh1.lookupKey cfg ctx d k true
  unfold RainCall.setKey
  simp only [hs2, keySpecStep, hentry]
  have hself := afterLookup_self ctx K d k
  cases r with
  | none =>
    have hlive : K.afterLookup ctx d k true d k = none := by rw [hself, hnone rfl]
    -- the lookup deleted at most the object of the key, which is not the value
    have hval2 : s2.heap.lookup val = some v ∧ s2.Unowned val := by
      rcases hchange with rfl | hdel
      · exact ⟨hval1, hu1⟩
      · exact hdel.unowned hval1 hu1
    obtain ⟨s', hs', hh'⟩ := hh2.dbAddInternal cfg hlive hval2.1 hshare hptr hval2.2
      (by simp : (none : Option ℤ) ≠ some (-1))
    refine ⟨s', hs', ?_⟩
    rw [hlive, bind_none, ite_self]
    exact hh'
  | some a =>
    obtain ⟨rfl, ha, hlive, hafter, o, e, ho, he, hst, -⟩ := hsome a rfl
    have hclear : keepTTL = false → ∀ a' old, (s1.db d).keys.lookup k = some a' →
        s1.heap.lookup a' = some old → old.swappable v → -1 ≤ kvobjGetExpire old := by
      intro hkeep a' old ha' hold hswap
      have hold' : s.object d k = some old := by
        rw [← hobj, object, ha', bind_some, hold]
      simp only [keepsTtl, hkeep, hold', all_some, decide_eq_true_eq, Bool.false_eq_true,
        false_or] at hneg
      exact hneg.resolve_left fun hno => hno hswap
    obtain ⟨s', hs', hh'⟩ :=
      hh1.dbSetValue cfg he hval1 hshare hptr hu1 true keepTTL hclear (by simp)
    refine ⟨s', hs', ?_⟩
    rw [hafter, he]
    exact hh'

/-- EXPIRE and its variants assign the TTL, or delete the key if the time has passed on a master. -/
lemma Keyspace.Holds.expireGenericCommand (h : s.Holds cfg none K) {ctx : KeyspaceCtx}
    (hnow : 0 ≤ ctx.now) (d : ℕ) (k : Bytes) (param : ℤ) (relative seconds : Bool)
    (flags : ExpireFlags) (hkeep : keepsTtl s (ctx, .expire d k param relative seconds flags)) :
    ∃ s', RainCall.expireGenericCommand cfg ctx s d k param relative seconds flags = some s' ∧
      s'.Holds cfg none (keySpecStep cfg K (ctx, .expire d k param relative seconds flags)) := by
  unfold RainCall.expireGenericCommand
  simp only [keySpecStep, ← ctx.expireTime_eq]
  simp only [keepsTtl, decide_eq_true_eq] at hkeep
  by_cases hflags : flags.compatible
  swap
  · rw [if_pos hflags, if_pos hflags]
    exact ⟨s, rfl, h⟩
  rw [if_neg (not_not.mpr hflags), if_neg (not_not.mpr hflags)]
  cases htime : ctx.expireTime param relative seconds with
  | none => exact ⟨s, rfl, h⟩
  | some time =>
    rw [htime] at hkeep
    obtain ⟨r, s1, hs1, hh1, -, hnone, hsome⟩ := h.lookupKey cfg ctx d k true
    have hself := afterLookup_self ctx K d k
    simp only [hs1, bind_eq_bind]
    cases r with
    | none =>
      rw [hself, hnone rfl]
      exact ⟨s1, rfl, hh1⟩
    | some a =>
      obtain ⟨rfl, ha, -, hafter, o, e, ho, he, hst, -⟩ := hsome a rfl
      simp only [elim_some, ho, bind_some, hafter, he, hst.getExpire]
      have hiff : flags.allow (e.ttl.getD (-1)) time ↔ flags.Holds e.ttl time :=
        ExpireFlags.allow_iff (hst.ttl_eq ▸ ttlOfExpire_ne _)
      by_cases hallow : flags.allow (e.ttl.getD (-1)) time
      · rw [if_neg (not_not.mpr hallow), if_neg (not_not.mpr (hiff.mp hallow))]
        by_cases hpast : ctx.checkAlreadyExpired time
        · have hpast' : time ≤ ctx.now ∧ ¬ ctx.masterhost := by
            simpa [KeyspaceCtx.checkAlreadyExpired] using hpast
          obtain ⟨s', hs', hh', -⟩ := h.dbGenericDelete cfg d k
          rw [he] at hs'
          rw [if_pos hpast, if_pos hpast', hs']
          exact ⟨s', rfl, hh'⟩
        · have hpast' : ¬ (time ≤ ctx.now ∧ ¬ ctx.masterhost) := by
            simpa [KeyspaceCtx.checkAlreadyExpired] using hpast
          -- a master does not get here with a negative time
          have hne : time ≠ -1 := by
            rintro rfl
            by_cases hm : ctx.masterhost
            · exact hkeep hm rfl
            · exact hpast' ⟨by omega, hm⟩
          obtain ⟨a', s', hs', hidx', hkeysizes, -⟩ :=
            h.indexes.setExpireByLink cfg ha ho he hne
          rw [if_neg hpast, if_neg hpast', hs']
          refine ⟨s', rfl, hidx', h.counts.of_same h.indexes hidx' hkeysizes ?_⟩
          rw [histClass, he]
          rfl
      · rw [if_pos hallow, if_pos (mt hiff.mpr hallow)]
        exact ⟨s1, rfl, h⟩

/-- A lookup of another key leaves the object of this key in place. -/
lemma Keyspace.Deletes.frame {s' : Keyspace V} {d' : ℕ} {k' : Bytes} (h : s.Indexes held K)
    (hdel : s' = s ∨ s.Deletes s' d k) (hk : ¬ (d' = d ∧ k' = k))
    (ha : (s.db d').keys.lookup k' = some a) :
    (s'.db d').keys.lookup k' = some a ∧ s'.heap.lookup a = s.heap.lookup a := by
  rcases hdel with rfl | hdel
  · exact ⟨ha, rfl⟩
  · refine ⟨by rw [hdel.keys, if_neg hk, ha], hdel.heap a fun ha' => ?_⟩
    exact h.ne_of_other ha' hk ha rfl

section

variable (h : s.Holds cfg none K) (ctx : KeyspaceCtx)
include h

lemma Keyspace.Holds.renameGenericCommand (d : ℕ) (src dst : Bytes) (nx : Bool) :
    ∃ s', RainCall.renameGenericCommand cfg ctx s d src dst nx = some s' ∧
      s'.Holds cfg none (keySpecStep cfg K (ctx, .rename d src dst nx)) := by
  obtain ⟨r, s1, hs1, hh1, -, hnone, hsome⟩ := h.lookupKey cfg ctx d src true
  unfold RainCall.renameGenericCommand
  simp only [hs1, bind_eq_bind, bind_some, keySpecStep]
  cases r with
  | none =>
    rw [afterLookup_self, hnone rfl]
    exact ⟨s1, rfl, hh1⟩
  | some o =>
    obtain ⟨rfl, ha, -, hafter, ob, e, ho, he, hst, hre⟩ := hsome o rfl
    have hre := hre (by simp)
    simp only [elim_some, hafter, he]
    by_cases hsame : src = dst
    · rw [if_pos hsame, if_pos hsame]
      exact ⟨s1, rfl, h⟩
    rw [if_neg hsame, if_neg hsame]
    have hkk : ¬ (d = d ∧ src = dst) := fun hc => hsame hc.2
    -- the object of the source is held while the destination is looked up and deleted
    obtain ⟨hincr, hh⟩ := h.retain cfg ha ho
    set s' : Keyspace V :=
      { s1 with heap := s1.heap.insert o { ob with refcount := ob.refcount + 1 } } with hs'
    have ho' : s'.heap.lookup o = some { ob with refcount := ob.refcount + 1 } :=
      lookup_insert _
    obtain ⟨r2, s2, hs2, hh2, hchange, hnone2, hsome2⟩ := hh.lookupKey cfg ctx d dst true
    obtain ⟨ha2, ho2⟩ := Keyspace.Deletes.frame hh.indexes hchange hkk ha
    rw [ho'] at ho2
    have he2 : K.afterLookup ctx d dst true d src = some e := by
      rw [afterLookup_of_ne ctx K true hkk, he]
    simp only [hincr, bind_some]
    rw [hs2, bind_some]
    cases r2 with
    | none =>
      have hdst : K.afterLookup ctx d dst true d dst = none := by
        rw [afterLookup_self, hnone2 rfl]
      obtain ⟨s4, s5, hs4, hs5, hh5⟩ := hh2.transfer cfg ha2 hre ho2 he2 hdst
      have hmeta : keyMetaOnTransfer { ob with refcount := ob.refcount + 1 } = e.ttl :=
        hst.keyMetaOnTransfer
      simp only [bind_some, ho2,
        hs4, hmeta, hs5, hdst]
      exact ⟨s5, rfl, hh5⟩
    | some b =>
      obtain ⟨rfl, hb, hlive2, hafter2, ob2, e2, -, hedst, -⟩ := hsome2 b rfl
      rw [hafter2] at he2 ⊢
      simp only [hedst, isSome_some, true_and, if_true]
      by_cases hnx : nx
      · obtain ⟨hdecr, hh3⟩ := hh.release cfg ha2 ho2 hre
        rw [if_pos hnx, if_pos hnx, hdecr]
        exact ⟨_, rfl, hh3⟩
      · obtain ⟨s3, hs3, hh3, hdel3⟩ := hh.dbDelete cfg d dst
        obtain ⟨ha3, ho3⟩ := Keyspace.Deletes.frame hh.indexes (.inr hdel3) hkk ha2
        rw [ho2] at ho3
        have he3 : K.set d dst none d src = some e := by rw [set_of_ne K none hkk, he]
        obtain ⟨s4, s5, hs4, hs5, hh5⟩ := hh3.transfer cfg ha3 hre ho3 he3 (set_self ..)
        have hmeta : keyMetaOnTransfer { ob with refcount := ob.refcount + 1 } = e.ttl :=
          hst.keyMetaOnTransfer
        simp only [if_neg hnx, hs3, bind_some, ho3, hs4, hmeta, hs5]
        refine ⟨s5, rfl, ?_⟩
        have hK : ((K.set d dst none).set d src none).set d dst (some e) =
            (K.set d src none).set d dst (some e) := by
          funext d' k'
          simp only [set_apply]
          split_ifs <;> rfl
        rwa [hK] at hh5

lemma Keyspace.Holds.moveCommand (src : ℕ) (key : Bytes) (dst : ℕ) :
    ∃ s', RainCall.moveCommand cfg ctx s src key dst = some s' ∧
      s'.Holds cfg none (keySpecStep cfg K (ctx, .move src key dst)) := by
  unfold RainCall.moveCommand
  simp only [keySpecStep]
  by_cases herr : cfg.dbnum ≤ dst ∨ src = dst
  · rw [if_pos herr, if_pos herr]
    exact ⟨s, rfl, h⟩
  rw [if_neg herr, if_neg herr]
  have hkk : ¬ (src = dst ∧ key = key) := fun hc => herr (.inr hc.1)
  obtain ⟨r, s1, hs1, hh1, -, hnone, hsome⟩ := h.lookupKey cfg ctx src key true
  simp only [hs1, bind_eq_bind, bind_some]
  cases r with
  | none =>
    rw [afterLookup_self, hnone rfl]
    exact ⟨s1, rfl, hh1⟩
  | some o =>
    obtain ⟨rfl, ha, -, hafter, ob, e, ho, he, hst, hre⟩ := hsome o rfl
    have hre := hre (by simp)
    simp only [elim_some, hafter, he]
    obtain ⟨r2, s2, hs2, hh2, hchange, hnone2, hsome2⟩ := h.lookupKey cfg ctx dst key true
    obtain ⟨ha2, ho2⟩ := Keyspace.Deletes.frame h.indexes hchange hkk ha
    rw [ho] at ho2
    rw [hs2]
    cases r2 with
    | none =>
      have hdst : K.afterLookup ctx dst key true dst key = none := by
        rw [afterLookup_self, hnone2 rfl]
      have he2 : K.afterLookup ctx dst key true src key = some e := by
        rw [afterLookup_of_ne ctx K true hkk, he]
      obtain ⟨hincr, hh3⟩ := hh2.retain cfg ha2 ho2
      obtain ⟨s4, s5, hs4, hs5, hh5⟩ :=
        hh3.transfer cfg ha2 hre (lookup_insert _) he2 hdst
      simp only [ho2, bind_some, hincr, hs4,
        hst.keyMetaOnTransfer, hs5, hdst]
      exact ⟨s5, rfl, hh5⟩
    | some b =>
      obtain ⟨rfl, hb, -, hafter2, ob2, e2, -, hedst, -⟩ := hsome2 b rfl
      rw [hafter2]
      simp only [hedst]
      exact ⟨s2, rfl, h⟩

lemma Keyspace.Holds.copyCommand (src : ℕ) (key : Bytes) (dst : ℕ) (newkey : Bytes)
    (replace moduleDup : Bool) :
    ∃ s', RainCall.copyCommand cfg ctx s src key dst newkey replace moduleDup = some s' ∧
      s'.Holds cfg none (keySpecStep cfg K (ctx, .copy src key dst newkey replace moduleDup)) := by
  unfold RainCall.copyCommand
  simp only [keySpecStep]
  by_cases herr : cfg.dbnum ≤ dst ∨ src = dst ∧ key = newkey
  · rw [if_pos herr, if_pos herr]
    exact ⟨s, rfl, h⟩
  rw [if_neg herr, if_neg herr]
  have hkk : ¬ (src = dst ∧ key = newkey) := fun hc => herr (.inr hc)
  obtain ⟨r, s1, hs1, hh1, -, hnone, hsome⟩ := h.lookupKey cfg ctx src key false
  simp only [hs1, bind_eq_bind, bind_some]
  cases r with
  | none =>
    rw [hnone rfl]
    exact ⟨s1, rfl, hh1⟩
  | some o =>
    obtain ⟨rfl, ha, hlive, hafter, ob, e, ho, he, hst, hre⟩ := hsome o rfl
    rw [hlive, he]
    simp only [elim_some, hafter]
    obtain ⟨r2, s2, hs2, hh2, hchange, hnone2, hsome2⟩ := h.lookupKey cfg ctx dst newkey true
    obtain ⟨ha2, ho2⟩ := Keyspace.Deletes.frame h.indexes hchange hkk ha
    rw [ho] at ho2
    have hdst := afterLookup_self ctx K dst newkey
    have hr2 : r2.isSome = (K.afterLookup ctx dst newkey true dst newkey).isSome := by
      rw [hdst]
      cases r2 with
      | none => rw [hnone2 rfl]; rfl
      | some b =>
        obtain ⟨rfl, hb, hlive2, -, -, e2, -, hedst, -⟩ := hsome2 b rfl
        rw [hlive2, hedst]
        rfl
    set K₂ := K.afterLookup ctx dst newkey true with hK2
    rw [hs2, bind_some]
    simp only [hr2]
    by_cases hexists : (K₂ dst newkey).isSome ∧ ¬ replace
    · rw [if_pos hexists, if_pos hexists]
      exact ⟨s2, rfl, hh2⟩
    rw [if_neg hexists, if_neg hexists]
    simp only [ho2, bind_some, hst.type_eq]
    by_cases hmodule : e.type = .module ∧ ¬ moduleDup
    · rw [if_pos hmodule, if_pos hmodule]
      exact ⟨s2, rfl, hh2⟩
    rw [if_neg hmodule, if_neg hmodule, hst.keyMetaOnTransfer]
    -- the copy is a new object, which the deletion of the old key does not touch
    obtain ⟨hh3, hval3, hu3⟩ := hh2.createObject cfg (dupObject ob)
    set s3 := (RainCall.createObject cfg s2 (dupObject ob)).2
    set val := (RainCall.createObject cfg s2 (dupObject ob)).1
    obtain ⟨s4, hs4, hh4, hval4, hu4⟩ : ∃ s4,
        (if (K₂ dst newkey).isSome then RainCall.dbDelete cfg s3 dst newkey else some s3) =
          some s4 ∧ s4.Holds cfg none (K₂.set dst newkey none) ∧
        s4.heap.lookup val = some (dupObject ob) ∧ s4.Unowned val := by
      by_cases hex : (K₂ dst newkey).isSome
      · obtain ⟨s4, hs4, hh4, hdel⟩ := hh3.dbDelete cfg dst newkey
        exact ⟨s4, by rw [if_pos hex, hs4], hh4, hdel.unowned hval3 hu3⟩
      · have hnone' : K₂ dst newkey = none := by simpa using hex
        refine ⟨s3, by rw [if_neg hex], ?_, hval3, hu3⟩
        rw [← hnone', set_eq_self]
        exact hh3
    have hshare : (dupObject ob).Sharable := ⟨Nat.one_pos, .inl rfl⟩
    obtain ⟨s5, hs5, hh5⟩ := hh4.dbAddInternal cfg (set_self ..) hval4 hshare hst.ptr_eq hu4
      hst.ttl_ne
    have htype : (dupObject ob).type = e.type := hst.type_eq
    rw [set_set, htype] at hh5
    refine ⟨s5, ?_, hh5⟩
    split_ifs at hs4 ⊢
    · rw [hs4, bind_some, hs5]
    · cases hs4
      exact hs5

end

/-! ### Runs -/

/-- One operation keeps the indexes and the histogram. -/
lemma Keyspace.Holds.step (h : s.Holds cfg none K) {op : KeyspaceCtx × KeyspaceOp V}
    (hnow : 0 ≤ op.1.now) (hop : op.2.admissible cfg s) (hkeep : keepsTtl s op) :
    ∃ s', keyspaceStep cfg s op = some s' ∧ s'.Holds cfg none (keySpecStep cfg K op) := by
  obtain ⟨ctx, op⟩ := op
  cases op with
  | dbAdd d key val =>
    simp only [KeyspaceOp.admissible, decide_eq_true_eq, isNone_iff_eq_none] at hop
    obtain ⟨hshare, ptr, hptr, hentry⟩ := isValue_spec hop.2
    obtain ⟨hh1, hval1, hu1⟩ := h.createObject cfg val
    simp only [keySpecStep, hentry]
    exact hh1.dbAddInternal cfg (h.indexes.object_eq_none hop.1) hval1 hshare hptr hu1 (by simp)
  | setKey d key val keepTTL => exact h.setKey cfg ctx d key hop hkeep
  | dbReplaceValue d key val updateKeySizes =>
    simp only [KeyspaceOp.admissible, decide_eq_true_eq] at hop
    obtain ⟨hvalue, hop⟩ := hop
    obtain ⟨hshare, ptr, hptr, hentry⟩ := isValue_spec hvalue
    obtain ⟨hh1, hval1, hu1⟩ := h.createObject cfg val
    cases hold : s.object d key with
    | none => simp [hold] at hop
    | some old =>
      simp only [hold, any_some, decide_eq_true_eq] at hop
      obtain ⟨a, ha, ho⟩ := bind_eq_some_iff.mp hold
      obtain ⟨e, he, hst, -⟩ := h.indexes.entry_of_lookup ha ho
      have hsizes : updateKeySizes = false →
          KeyEntry.histClass cfg ⟨val.type, ptr, none⟩ = e.histClass cfg := by
        intro hupdate
        obtain ⟨htype, hlen⟩ := hop.resolve_left (by simp [hupdate])
        have hlen' : KeyEntry.length cfg ⟨val.type, ptr, none⟩ = e.length cfg := by
          rw [← hst.getObjectLength, hlen, getObjectLength, hptr]
          rfl
        unfold KeyEntry.histClass
        rw [hlen', ← hst.type_eq, htype]
      obtain ⟨s', hs', hh'⟩ :=
        hh1.dbSetValue cfg he hval1 hshare hptr hu1 updateKeySizes true (by simp) hsizes
      simp only [keySpecStep, hentry, he]
      exact ⟨s', hs', hh'⟩
  | expire d key param relative seconds flags =>
    exact h.expireGenericCommand cfg hnow d key param relative seconds flags hkeep
  | removeExpire d key =>
    obtain ⟨b, s', hs', hidx', hkeysizes, -⟩ := h.indexes.removeExpire cfg d key
    refine ⟨s', by rw [keyspaceStep, hs', map_some], hidx',
      h.counts.of_same h.indexes hidx' hkeysizes ?_⟩
    unfold histClass
    cases K d key <;> rfl
  | dbGenericDelete d key =>
    obtain ⟨s', hs', hh', -⟩ := h.dbGenericDelete cfg d key
    exact ⟨s', by rw [keyspaceStep, hs', map_some], hh'⟩
  | rename d src dst nx => exact h.renameGenericCommand cfg ctx d src dst nx
  | move src key dst => exact h.moveCommand cfg ctx src key dst
  | copy src key dst newkey replace moduleDup =>
    exact h.copyCommand cfg ctx src key dst newkey replace moduleDup

/-- `expires` holds exactly the pointers of `keys` to objects with an expire time. -/
def Keyspace.ExpiresExact (s : Keyspace V) : Prop :=
  ∀ d k a, (s.db d).expires.lookup k = some a ↔
    (s.db d).keys.lookup k = some a ∧ ∃ o, s.heap.lookup a = some o ∧ kvobjGetExpire o ≠ -1

/-- The bin of an object in the histograms. -/
def RedisObject.histClass (o : RedisObject V) : Option (ObjType × ℕ) :=
  if o.type.isBasic then some (o.type, keysizesBin (getObjectLength cfg o)) else none

/-- The histograms are what a recount of `keys` gives. -/
def Keyspace.KeysizesExact (s : Keyspace V) : Prop :=
  ∀ d t b, t.isBasic → (s.db d).keysizes t b =
    census (s.db d).keys.keys (fun k => (s.object d k).bind (RedisObject.histClass cfg)) (t, b)

/-- The TTL of a key. -/
def Keyspace.ttl (s : Keyspace V) (d : ℕ) (k : Bytes) : Option ℤ :=
  (s.object d k).bind fun o => ttlOfExpire (kvobjGetExpire o)

lemma Keyspace.Indexes.expiresExact (h : s.Indexes held K) : s.ExpiresExact := by
  intro d k a
  rw [h.expires]
  cases ha : (s.db d).keys.lookup k with
  | none => simp
  | some a' =>
    obtain ⟨o, e, ho, he, hst, -⟩ := h.stored ha
    simp only [he, bind_some, hst.ttl_eq_none_iff]
    constructor
    · intro hlookup
      split_ifs at hlookup with hexp
      cases hlookup
      exact ⟨rfl, o, ho, hexp⟩
    · rintro ⟨⟨⟩, o', ho', hexp⟩
      rw [ho] at ho'
      cases ho'
      rw [if_neg hexp]

lemma Keyspace.Indexes.ttl_eq (h : s.Indexes held K) (d : ℕ) (k : Bytes) :
    s.ttl d k = (K d k).bind KeyEntry.ttl := by
  unfold ttl
  cases he : K d k with
  | none =>
    rw [object, h.lookup_eq_none_iff.mpr he]
    rfl
  | some e =>
    obtain ⟨o, ho, hst⟩ := h.object_eq he
    rw [ho, bind_some, bind_some, hst.ttl_eq]

lemma Keyspace.Holds.keysizesExact (h : s.Holds cfg held K) : s.KeysizesExact cfg := by
  intro d t b ht
  rw [h.counts d t b ht]
  congr 1
  refine census_congr (fun k hk => ?_) _
  obtain ⟨e, he⟩ := ne_none_iff_exists'.mp (h.indexes.mem_keys.mp hk)
  obtain ⟨o, ho, hst⟩ := h.indexes.object_eq he
  rw [KeyMap.histClass, he, ho, bind_some, bind_some, KeyEntry.histClass,
    RedisObject.histClass, hst.type_eq, hst.getObjectLength]

/-- An empty server represents no entries. -/
lemma Keyspace.empty_holds : Keyspace.Holds cfg .empty none fun _ _ => none := by
  refine ⟨⟨?_, ?_, ?_, ?_⟩, ?_⟩
  · intro d k a ha
    exact absurd ha (by simp [empty])
  · intro d k _
    rfl
  · intro d k d' k' a ha
    exact absurd ha (by simp [empty])
  · intro d k
    rfl
  · intro d t b _
    simp [empty]

/-- Over every run of the operations the state represents the entries of the specification. -/
lemma Keyspace.Holds.run (h : s.Holds cfg none K) (ops : List (KeyspaceCtx × KeyspaceOp V))
    (hops : RunSatisfies (keyspaceStep cfg) (fun s op => 0 ≤ op.1.now ∧ op.2.admissible cfg s) s
      ops) (hkeep : RunSatisfies (keyspaceStep cfg) (fun s op => keepsTtl s op) s ops) :
    ∃ s', runSteps (keyspaceStep cfg) s ops = some s' ∧
      s'.Holds cfg none (ops.foldl (keySpecStep cfg) K) :=
  (hops.and hkeep).simulation (keySpecStep cfg) (fun s K => s.Holds cfg none K)
    (fun _ _ _ hop hs => hs.step cfg hop.1.1 hop.1.2 hop.2) h

/-- Over every run of the operations whose steps assign no expire time `-1` on a replica and do not
overwrite a negative expire time in place: no assertion fails, `expires` holds exactly the objects
with an expire time, the histograms are what a recount gives, and the TTL of every key is the one
that was assigned last and not cleared. -/
theorem expires_index_exact {s : Keyspace V} {K : KeyMap V} (h : s.Holds cfg none K)
    (ops : List (KeyspaceCtx × KeyspaceOp V))
    (hops : RunSatisfies (keyspaceStep cfg)
      (fun s op => 0 ≤ op.1.now ∧ op.2.admissible cfg s) s ops)
    (hkeep : RunSatisfies (keyspaceStep cfg) (fun s op => keepsTtl s op) s ops) :
    ∃ s', runSteps (keyspaceStep cfg) s ops = some s' ∧ s'.ExpiresExact ∧ s'.KeysizesExact cfg ∧
      ∀ d k, s'.ttl d k = (ops.foldl (keySpecStep cfg) K d k).bind KeyEntry.ttl := by
  obtain ⟨s', hs', hh'⟩ := h.run cfg ops hops hkeep
  exact ⟨s', hs', hh'.indexes.expiresExact, hh'.keysizesExact cfg, hh'.indexes.ttl_eq⟩

/-- An address above all others is free. -/
lemma sup_succ_notMem (h : ObjHeap V) : h.keys.sup id + 1 ∉ h := by
  intro hmem
  have hle : h.keys.sup id + 1 ≤ h.keys.sup id := Finset.le_sup (f := id) (mem_keys.mpr hmem)
  exact Nat.not_succ_le_self _ hle

/-- A server with an allocator that takes the next address. -/
def sampleKeyspaceConfig : KeyspaceConfig ℕ where
  cacheLineSize := 64
  length := id
  malloc h := h.keys.sup id + 1
  malloc_notMem := sup_succ_notMem
  dbnum := 16

/-- A string object of 100 bytes that is not embedded. -/
def sampleRawValue : RedisObject ℕ := ⟨.string, .raw, some 100, 1, none, none⟩

/-- No condition on the current time. -/
def noExpireFlags : ExpireFlags := ⟨false, false, false, false⟩

/-- A key gets a TTL, is renamed with it, and loses it when it is overwritten in place. -/
theorem expires_index_exact_rename :
    let ops : List (KeyspaceCtx × KeyspaceOp ℕ) :=
      [(⟨5, false⟩, .dbAdd 0 [97] sampleRawValue),
        (⟨5, false⟩, .expire 0 [97] 50 false false noExpireFlags),
        (⟨6, false⟩, .rename 0 [97] [98] false),
        (⟨7, false⟩, .copy 0 [98] 1 [99] false false),
        (⟨8, false⟩, .setKey 0 [98] sampleRawValue false)]
    ∃ s', runSteps (keyspaceStep sampleKeyspaceConfig) .empty ops = some s' ∧ s'.ExpiresExact ∧
      s'.KeysizesExact sampleKeyspaceConfig ∧ ∀ d k, s'.ttl d k =
        (ops.foldl (keySpecStep sampleKeyspaceConfig) (fun _ _ => none) d k).bind KeyEntry.ttl :=
  expires_index_exact sampleKeyspaceConfig (Keyspace.empty_holds _) _ (by decide +kernel)
    (by decide +kernel)

/-- On a writable replica: `PEXPIREAT key -1` puts a key without an expire time into `expires`, the
next `PEXPIREAT` fails an assertion, and an overwrite in place does not clear the expire time
`-5`. -/
theorem expires_index_broken :
    let replica : KeyspaceCtx := ⟨5, true⟩
    let expireAt (t : ℤ) : KeyspaceCtx × KeyspaceOp ℕ :=
      (replica, .expire 0 [97] t false false noExpireFlags)
    let add : KeyspaceCtx × KeyspaceOp ℕ := (replica, .dbAdd 0 [97] sampleRawValue)
    let set : KeyspaceCtx × KeyspaceOp ℕ := (replica, .setKey 0 [97] sampleRawValue false)
    let run := runSteps (keyspaceStep sampleKeyspaceConfig) .empty
    (∃ s, run [add, expireAt (-1)] = some s ∧ ¬ s.ExpiresExact) ∧
      run [add, expireAt (-1), expireAt 100] = none ∧
      (run [add, expireAt (-5), set]).map (fun s => s.ttl 0 [97]) = some (some (-5)) ∧
      (([add, expireAt (-5), set].foldl (keySpecStep sampleKeyspaceConfig) (fun _ _ => none)) 0
        [97]).bind KeyEntry.ttl = none := by
  refine ⟨?_, by decide +kernel, by decide +kernel, by decide +kernel⟩
  have hobserve : (runSteps (keyspaceStep sampleKeyspaceConfig) .empty
      [((⟨5, true⟩ : KeyspaceCtx), .dbAdd 0 [97] sampleRawValue),
        (⟨5, true⟩, .expire 0 [97] (-1) false false noExpireFlags)]).map (fun s =>
      ((s.db 0).expires.lookup [97], (s.object 0 [97]).map kvobjGetExpire)) =
      some (some 2, some (-1)) := by decide +kernel
  obtain ⟨s, hs, heq⟩ := Option.map_eq_some_iff.mp hobserve
  refine ⟨s, hs, fun hexact => ?_⟩
  obtain ⟨hexpires, hobject⟩ := Prod.mk.inj heq
  obtain ⟨hkeys, o, ho, hne⟩ := (hexact 0 [97] 2).mp hexpires
  rw [Keyspace.object, hkeys, Option.bind_some, ho] at hobject
  exact hne (Option.some.inj hobject)

/-- The entry that the object of a key stands for. -/
def Keyspace.entry (s : Keyspace V) (d : ℕ) (k : Bytes) : Option (KeyEntry V) := do
  let o ← s.object d k
  let value ← o.ptr
  some ⟨o.type, value, ttlOfExpire (kvobjGetExpire o)⟩

/-- **The databases refine the map of their entries.** Over every run from the empty server that
meets `keepsTtl`, a lookup finds the type, the value and the TTL of the specification, every pointer
of a database leads to a live object with the name of its key, and no two keys have the same
object. -/
theorem keyspace_refines_entries (ops : List (KeyspaceCtx × KeyspaceOp V))
    (hops : RunSatisfies (keyspaceStep cfg)
      (fun s op => 0 ≤ op.1.now ∧ op.2.admissible cfg s) .empty
      ops) (hkeep : RunSatisfies (keyspaceStep cfg) (fun s op => keepsTtl s op) .empty ops) :
    ∃ s, runSteps (keyspaceStep cfg) .empty ops = some s ∧
      (∀ d k, s.entry d k = ops.foldl (keySpecStep cfg) (fun _ _ => none) d k) ∧
      ∀ d k a, (s.db d).keys.lookup k = some a →
        (∃ o, s.heap.lookup a = some o ∧ o.key = some k) ∧
        ∀ d' k', (s.db d').keys.lookup k' = some a → d' = d ∧ k' = k := by
  obtain ⟨s, hs, hh⟩ := (Keyspace.empty_holds cfg).run cfg ops hops hkeep
  refine ⟨s, hs, fun d k => ?_, fun d k a ha => ⟨?_, fun d' k' ha' => hh.indexes.injective ha' ha⟩⟩
  · rw [Keyspace.entry, Keyspace.object]
    cases ha : (s.db d).keys.lookup k with
    | none => rw [hh.indexes.absent ha]; rfl
    | some a =>
      obtain ⟨o, e, ho, he, hst, -⟩ := hh.indexes.stored ha
      simp [ho, he, hst.type_eq, hst.ptr_eq, hst.ttl_eq]
  · obtain ⟨o, e, ho, -, hst, -⟩ := hh.indexes.stored ha
    exact ⟨o, ho, hst.key_eq⟩

/-- A key is copied to another database and deleted. -/
theorem keyspace_refines_entries_copy :
    ∃ s, runSteps (keyspaceStep sampleKeyspaceConfig) .empty
        [(⟨5, false⟩, .dbAdd 0 [97] sampleRawValue), (⟨5, false⟩, .copy 0 [97] 1 [98] false false),
          (⟨6, false⟩, .dbGenericDelete 0 [97])] = some s ∧
      s.entry 1 [98] = some ⟨.string, 100, none⟩ :=
  (keyspace_refines_entries sampleKeyspaceConfig _ (by decide +kernel) (by decide +kernel)).imp
    fun _ hs => ⟨hs.1, (hs.2.1 1 [98]).trans (by decide +kernel)⟩

end RainCall
