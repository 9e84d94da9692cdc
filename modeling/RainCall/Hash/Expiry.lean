import RainCall.Hash.CommandLoops
import RainCall.Foundation.Run

/-!
# Expired fields

A field whose expiry time has passed stays in the hash until somebody removes it. In the meantime
the commands have to treat it as absent. All of them do so except for the `HEXPIRE` family, which
gives an expired field a new expiry time and brings it back to life. Apart from that an expired
field stays dead until a command supplies a value for it (`expired_field_stays_dead`).
-/

namespace RainCall

open Function HashProg Option Program TtlMap

/-! ### Events on a key -/

/-- The loop of `hashTypeExpire` over fields that it tries to expire. -/
def hashTypeExpireLoop (now : ℕ) : List Bytes → HashProg ℕ
  | [] => return 0
  | field :: fields => do
    match ← getField field with
    | some (_, some expire) =>
      if expire ≤ now then
        serverAssert (← deleteField field)
        propagateHashFieldDeletion field
        let expired ← hashTypeExpireLoop now fields
        return expired + 1
      else hashTypeExpireLoop now fields
    | _ => hashTypeExpireLoop now fields

/-- `hashTypeExpire`: active expiration, and what `HRANDFIELD` does first. Which fields are looked
at depends on the quota and on the order of the fields. -/
def hashTypeExpire (now : ℕ) (fields : List Bytes) : HashProg Unit := do
  if ← lookupKey then
    let expired ← hashTypeExpireLoop now fields
    Program.when (expired ≠ 0) deleteIfEmpty
  else return ()

/-- What can happen to a hash. -/
inductive HashEvent
  | command (cmd : HashCommand)
  | expire (fields : List Bytes)
  | deleteKey
deriving DecidableEq, Repr

/-- An event with its time and the configuration of the server at that time. -/
structure TimedEvent where
  now : ℕ
  cfg : HashConfig
  event : HashEvent

/-- An event on a master. -/
def hashEventStep (ld : LongDoubleText) (slot : Option HashObj) (e : TimedEvent) :
    Option (Option HashObj) :=
  match e.event with
  | .command cmd => Prod.fst <$> callHashCommand ld e.cfg ⟨e.now, true⟩ slot cmd
  | .expire fields =>
    (fun r => r.1.slot) <$>
      (hashTypeExpire e.now fields).run (hashApiStep e.cfg ⟨e.now, true⟩) ⟨slot, []⟩
  | .deleteKey => some none

def HashCommand.Supplies (f : Bytes) : HashCommand → Prop
  | .hset fvs => f ∈ fvs.map Prod.fst
  | .hsetnx field _ => f = field
  | .hsetex _ _ fvs => f ∈ fvs.map Prod.fst
  | .hincrby field _ => f = field
  | .hincrbyfloat field _ => f = field
  | _ => False

def HashEvent.Supplies (f : Bytes) : HashEvent → Prop
  | .command cmd => cmd.Supplies f
  | _ => False

/-- The command does not give the field a time in the future in the place of the expiry time `ttl`,
which has passed. -/
def HashCommand.Respects (now : ℕ) (f : Bytes) (ttl : Option ℕ) : HashCommand → Prop
  | .hexpire arg cond fields =>
    match parseExpireTime arg.commandName ⟨now, true⟩ arg with
    | .ok t => f ∈ fields → now < t → ∀ e ∈ ttl, e < now → cond.allows (some e) t = false
    | .error _ => True
  | _ => True

/-- An event other than a command respects every field. -/
def HashEvent.Respects (now : ℕ) (f : Bytes) (ttl : Option ℕ) : HashEvent → Prop
  | .command cmd => cmd.Respects now f ttl
  | _ => True

instance HashCommand.Supplies.decidable (f : Bytes) : ∀ cmd : HashCommand,
    Decidable (cmd.Supplies f)
  | .hset fvs | .hsetex _ _ fvs => inferInstanceAs (Decidable (f ∈ fvs.map Prod.fst))
  | .hsetnx g _ | .hincrby g _ | .hincrbyfloat g _ => inferInstanceAs (Decidable (f = g))
  | .hget _ | .hmget _ | .hexists _ | .hstrlen _ | .hgetex _ _ | .hgetdel _ | .hdel _
  | .hpersist _ | .hexpire _ _ _ | .httl _ _ _ => instDecidableFalse

instance HashEvent.Supplies.decidable (f : Bytes) : ∀ e : HashEvent, Decidable (e.Supplies f)
  | .command cmd => HashCommand.Supplies.decidable f cmd
  | .expire _ | .deleteKey => instDecidableFalse

instance HashCommand.Respects.decidable (now : ℕ) (f : Bytes) (ttl : Option ℕ) :
    ∀ cmd : HashCommand, Decidable (cmd.Respects now f ttl)
  | .hexpire arg cond fields =>
    Except.casesOn (motive := fun parsed => Decidable (match parsed with
        | .ok t => f ∈ fields → now < t → ∀ e ∈ ttl, e < now → cond.allows (some e) t = false
        | .error _ => True)) (parseExpireTime arg.commandName ⟨now, true⟩ arg)
      (fun _ => instDecidableTrue) (fun _ => inferInstance)
  | .hset _ | .hsetnx _ _ | .hsetex _ _ _ | .hincrby _ _ | .hincrbyfloat _ _ | .hget _ | .hmget _
  | .hexists _ | .hstrlen _ | .hgetex _ _ | .hgetdel _ | .hdel _ | .hpersist _
  | .httl _ _ _ => instDecidableTrue

instance HashEvent.Respects.decidable (now : ℕ) (f : Bytes) (ttl : Option ℕ) :
    ∀ e : HashEvent, Decidable (e.Respects now f ttl)
  | .command cmd => HashCommand.Respects.decidable now f ttl cmd
  | .expire _ | .deleteKey => instDecidableTrue

/-! ### Dead fields -/

/-- The field is absent, or its expiry time lies before `t`. -/
def TtlMap.Dead (f : Bytes) (t : ℕ) (m : TtlMap) : Prop :=
  m f = none ∨ ∃ v e, m f = some (v, some e) ∧ e < t

section Dead

variable {f : Bytes} {t : ℕ} {m m' : TtlMap}

lemma TtlMap.Dead.congr (h : m.Dead f t) (hm : m' f = m f) : m'.Dead f t := by
  rwa [TtlMap.Dead, hm]

lemma TtlMap.Dead.update_none (h : m.Dead f t) (g : Bytes) :
    TtlMap.Dead f t (update m g none) := by
  by_cases hg : f = g
  · subst hg
    exact .inl (update_self ..)
  · exact h.congr (update_of_ne hg ..)

lemma TtlMap.Dead.without (h : m.Dead f t) (fs : List Bytes) : (m.without fs).Dead f t := by
  by_cases hf : f ∈ fs
  · exact .inl (by simp [TtlMap.without, hf])
  · exact h.congr (by simp [TtlMap.without, hf])

variable {g : Bytes} {keepTtl : Bool} {fvs : List (Bytes × Bytes)}
  {cond : ExpireSetCond} {expireTime : Option ℕ} {ttl : SetexTtl}

lemma TtlMap.Dead.ttlSet (h : m.Dead f t) {v : Bytes} (hg : f ≠ g) :
    (ttlSet m g v keepTtl).Dead f t :=
  h.congr (update_of_ne hg ..)

lemma TtlMap.Dead.ttlSetAll (h : m.Dead f t) (hf : f ∉ fvs.map Prod.fst) :
    (ttlSetAll keepTtl m fvs).Dead f t := by
  induction fvs generalizing m with
  | nil => exact h
  | cons fv fvs ih =>
    rw [List.map_cons, List.mem_cons, not_or] at hf
    exact ih (h.ttlSet hf.1) hf.2

variable {now : ℕ}

/-- A dead field has expired. -/
lemma TtlMap.Dead.live_eq_none (h : m.Dead f t) (hnow : t ≤ now) :
    m.live ⟨now, true⟩ f = none := by
  rcases h with hf | ⟨v, e, hf, he⟩
  · simp [live, hf]
  · have hlt : e < now := by omega
    simp [live, ttl, hf, HashCtx.isExpired, hlt]

lemma TtlMap.Dead.ttlPersist (h : m.Dead f t) (hnow : t ≤ now) (g : Bytes) :
    (ttlPersist now m g).Dead f t := by
  by_cases hg : f = g
  · subst hg
    refine h.congr ?_
    rcases h with hf | ⟨v, e, hf, he⟩
    · simp [RainCall.ttlPersist, hf]
    · have hlt : e < now := by omega
      simp [RainCall.ttlPersist, hf, hlt]
  · refine h.congr ?_
    unfold RainCall.ttlPersist
    rcases m g with _ | ⟨v, _ | e⟩
    · rfl
    · rfl
    · by_cases he : e < now
      · simp [he]
      · simp [he, hg]

lemma ttlSetEx_of_ne {isHT : Bool} {ctx : HashCtx} {e : Option ℕ} (hg : f ≠ g) :
    (ttlSetEx isHT ctx m cond g e).1 f = m f := by
  unfold ttlSetEx
  split
  · rfl
  · rfl
  · exact update_of_ne hg ..
  · split_ifs
    · rfl
    · rfl
    · exact update_of_ne hg ..
    · exact update_of_ne hg ..

/-- A time in the past, or one that the condition does not allow, keeps a dead field dead and its
expiry time as it is. -/
lemma ttlSetEx_dead {isHT : Bool} {e : ℕ}
    (h : e ≤ now ∨ ∀ e' ∈ m.ttl f, cond.allows (some e') e = false) (hdead : m.Dead f t) :
    (ttlSetEx isHT ⟨now, true⟩ m cond f (some e)).1 f = m f ∨
      (ttlSetEx isHT ⟨now, true⟩ m cond f (some e)).1 f = none := by
  rcases hdead with hf | ⟨v, e', hf, -⟩
  · exact .inl (by simp [ttlSetEx, hf])
  · rcases h with hpast | hcond
    · rcases @ttlSetEx_past m f isHT now e cond hpast with heq | heq
      · exact .inl (by rw [heq])
      · exact .inr (by rw [heq, update_self])
    · left
      have hallow := hcond e' (by simp [ttl, hf])
      rw [ttlSetEx_of_some hf, hallow]
      rfl

/-! ### The commands keep a dead field dead -/

/-- The field is dead at the key. -/
def KeySpec.Dead (f : Bytes) (t : ℕ) (k : KeySpec) : Prop := (k.map.getD .empty).Dead f t

lemma TtlMap.dead_empty : empty.Dead f t := .inl rfl

variable {hdels : List Bytes} {supports : Prop}

@[simp] lemma KeySpec.dead_some :
    KeySpec.Dead f t ⟨some m, supports, hdels⟩ ↔ m.Dead f t := Iff.rfl

@[simp] lemma KeySpec.dead_none :
    KeySpec.Dead f t ⟨none, supports, hdels⟩ := dead_empty

lemma TtlMap.Dead.orDeleted (h : m.Dead f t) :
    KeySpec.Dead f t ⟨m.orDeleted, supports, hdels⟩ := by
  rwa [KeySpec.Dead, getD_orDeleted]

/-- A read finds no value for a dead field, and keeps it dead. -/
lemma hashTypeGetValue_dead (h : m.Dead f t) (hnow : t ≤ now) (g : Bytes)
    (avoidHashDel : Bool) :
    (hashTypeGetValue ⟨now, true⟩ g avoidHashDel).wp (hashSpec ⟨now, true⟩)
      (fun s r => (f = g → r.value = none) ∧
        ((∃ m' hdels', s = ⟨some m', supports, hdels'⟩ ∧ m'.Dead f t ∧ r ≠ .expiredHash) ∨
          ∃ hdels', s = ⟨none, supports, hdels'⟩ ∧ r = .expiredHash ∧ avoidHashDel = false))
      ⟨some m, supports, hdels⟩ := by
  rw [wp_hashTypeGetValue]
  refine ⟨fun hexp => ⟨?_, .inl ⟨m, hdels, rfl, h, by simp⟩⟩, fun hexp =>
    ⟨fun _ => ⟨fun _ => rfl, ?_⟩,
    fun havoid _ => ⟨fun _ => rfl, .inr ⟨hdels ++ [g], rfl, rfl, havoid⟩⟩⟩⟩
  · rintro rfl
    rw [GetFieldRes.value_ofValue, h.live_eq_none hnow]
  · exact .inl ⟨_, _, rfl, h.update_none g, by simp⟩

lemma hmgetLoop_dead (hnow : t ≤ now) (deleted : Bool) (fields : List Bytes) {k : KeySpec}
    (h : k.Dead f t) (hk : deleted = false → k.map.isSome) :
    (hmgetLoop ⟨now, true⟩ deleted fields).wp (hashSpec ⟨now, true⟩) (fun s _ => s.Dead f t) k := by
  induction fields generalizing deleted k with
  | nil => cases deleted <;> exact h
  | cons g fields ih =>
    cases deleted with
    | true =>
      rw [hmgetLoop, wp_bind]
      exact (ih true h hk).mono fun _ _ hs => hs
    | false =>
      obtain ⟨_ | m, supports, hdels⟩ := k
      · exact absurd (hk rfl) Bool.false_ne_true
      rw [hmgetLoop, wp_bind]
      refine (hashTypeGetValue_dead h hnow g false).mono ?_
      rintro s r ⟨-, ⟨m', hdels', rfl, hdead, hr⟩ | ⟨hdels', rfl, rfl, -⟩⟩
      · rw [wp_bind, decide_eq_false hr]
        exact (@ih false ⟨some m', supports, hdels'⟩ hdead fun _ => rfl).mono fun _ _ hs => hs
      · rw [wp_bind]
        exact (@ih true ⟨none, supports, hdels'⟩ dead_empty Bool.noConfusion).mono
          fun _ _ hs => hs

lemma hexpireLoop_dead {e : ℕ} (hmax : e ≤ ebExpireTimeMax) (fields : List Bytes)
    (hdels : List Bytes)
    (hdead : m.Dead f t)
    (h : f ∈ fields → e ≤ now ∨ ∀ e' ∈ m.ttl f, cond.allows (some e') e = false) :
    (hexpireLoop cond e fields).wp (hashSpec ⟨now, true⟩)
      (fun s _ => ∃ m' hdels', s = ⟨some m', True, hdels'⟩ ∧ m'.Dead f t)
        ⟨some m, True, hdels⟩ := by
  induction fields generalizing m hdels with
  | nil => exact ⟨m, hdels, rfl, hdead⟩
  | cons g fields ih =>
    rw [hexpireLoop, wp_bind, wp_setEx]
    refine ⟨⟨.inl rfl, by simpa using hmax⟩, fun isHT => ?_⟩
    rw [wp_bind]
    -- The field is as before or gone.
    have hstep : (ttlSetEx isHT ⟨now, true⟩ m cond g (some e)).1 f = m f ∨
        (ttlSetEx isHT ⟨now, true⟩ m cond g (some e)).1 f = none := by
      by_cases hg : f = g
      · subst hg
        exact ttlSetEx_dead (h List.mem_cons_self) hdead
      · exact .inl (ttlSetEx_of_ne hg)
    refine (ih _ ?_ fun hf => ?_).mono fun s r hs => hs
    · rcases hstep with hstep | hstep
      · exact hdead.congr hstep
      · exact .inl hstep
    · refine (h (List.mem_cons_of_mem g hf)).imp_right fun hcond e' he' => ?_
      rcases hstep with hstep | hstep
      · exact hcond e' (by rwa [ttl, hstep] at he')
      · rw [ttl, hstep] at he'
        cases he'

variable {expireAt : Option (Option ℕ)}

lemma hgetexTime_le_max {ctx : HashCtx} {ttl : GetexTtl} (h : hgetexTime ctx ttl = .ok expireAt) :
    ∀ e ∈ expireAt, ∀ u ∈ e, u ≤ ebExpireTimeMax := by
  cases ttl with
  | keep | persist =>
    obtain rfl := Except.ok.inj h
    simp
  | expire arg =>
    cases hparse : parseExpireTime "hgetex" ctx arg with
    | error msg =>
      rw [hgetexTime, hparse] at h
      cases h
    | ok t =>
      rw [hgetexTime, hparse] at h
      obtain rfl : some (some t) = expireAt := Except.ok.inj h
      simpa using parseExpireTime_le_max hparse

section

variable (hmax : ∀ e ∈ expireAt, ∀ u ∈ e, u ≤ ebExpireTimeMax)
include hmax

lemma hgetexUpdate_dead (hdead : m.Dead f t)
    (hsupp : expireAt.isSome = true → supports = True) {r : GetFieldRes}
    (hvalue : f = g → r.value = none) :
    (hgetexUpdate expireAt g r).wp (hashSpec ⟨now, true⟩)
      (fun s _ => ∃ m' hdels', s = ⟨some m', supports, hdels'⟩ ∧ m'.Dead f t)
      ⟨some m, supports, hdels⟩ := by
  unfold hgetexUpdate
  split
  · split
    · obtain rfl : supports = True := hsupp rfl
      have hg : f ≠ g := by
        rintro rfl
        cases hvalue rfl
      rw [wp_bind, wp_setEx]
      exact ⟨⟨.inl rfl, hmax _ rfl⟩, fun isHT => ⟨_, _, rfl, hdead.congr (ttlSetEx_of_ne hg)⟩⟩
    · exact ⟨m, hdels, rfl, hdead⟩
  · exact ⟨m, hdels, rfl, hdead⟩

lemma hgetexLoop_dead (hnow : t ≤ now)
    (hsupp : expireAt.isSome = true → supports = True) (fields : List Bytes)
    (hdead : m.Dead f t) (hdels : List Bytes) :
    (hgetexLoop ⟨now, true⟩ expireAt fields).wp (hashSpec ⟨now, true⟩)
      (fun s _ => ∃ m' hdels', s = ⟨some m', supports, hdels'⟩ ∧ m'.Dead f t)
      ⟨some m, supports, hdels⟩ := by
  induction fields generalizing m hdels with
  | nil => exact ⟨m, hdels, rfl, hdead⟩
  | cons g fields ih =>
    rw [hgetexLoop, wp_bind]
    refine (hashTypeGetValue_dead hdead hnow g true).mono ?_
    rintro s r ⟨hvalue, ⟨m1, hdels1, rfl, hdead1, -⟩ | ⟨_, -, -, hfalse⟩⟩
    · rw [wp_bind]
      refine (hgetexUpdate_dead hmax hdead1 hsupp hvalue).mono ?_
      rintro _ _ ⟨m2, hdels2, rfl, hdead2⟩
      rw [wp_bind]
      exact (ih hdead2 hdels2).mono fun s r hs => hs
    · cases hfalse

end

section

variable {m : Option TtlMap} (h : KeySpec.Dead f t ⟨m, False, []⟩) (hnow : t ≤ now)
include h hnow

lemma readFieldCommand_dead (g : Bytes) (reply : Option Bytes → HashReply) :
    (readFieldCommand ⟨now, true⟩ g reply).wp (hashSpec ⟨now, true⟩)
      (fun s r => s.Dead f t ∧ (f = g → r.reply = reply none)) ⟨m, False, []⟩ := by
  cases m with
  | none => simp [readFieldCommand, CommandResult.unchanged]
  | some m =>
    simp only [readFieldCommand, wp_bind, wp_lookupKey, isSome_some, if_true]
    refine (hashTypeGetValue_dead h hnow g false).mono ?_
    rintro s r ⟨hvalue, ⟨m', hdels', rfl, hdead, -⟩ | ⟨hdels', rfl, -⟩⟩
    · exact ⟨hdead, fun hg => by rw [hvalue hg]; rfl⟩
    · exact ⟨dead_empty, fun hg => by rw [hvalue hg]; rfl⟩

lemma hsetnxCommand_dead (hg : f ≠ g) (v : Bytes) :
    (hsetnxCommand ⟨now, true⟩ g v).wp (hashSpec ⟨now, true⟩) (fun s _ => s.Dead f t)
      ⟨m, False, []⟩ := by
  simp only [hsetnxCommand, wp_bind, wp_hashTypeLookupWriteOrCreate]
  refine (hashTypeGetValue_dead h hnow g false).mono ?_
  rintro s r ⟨-, ⟨m', hdels', rfl, hdead, hr⟩ | ⟨hdels', rfl, rfl, -⟩⟩
  · split_ifs
    · exact hdead
    · simp only [wp_bind, wp_when, hr, false_implies, not_false_eq_true,
        true_implies, true_and, wp_tryConversion, wp_setField]
      exact hdead.ttlSet hg
  · simp only [GetFieldRes.value, isSome_none, Bool.false_eq_true, if_false,
      wp_bind, wp_when, true_implies, not_true_eq_false, false_implies, and_true,
      wp_dbAdd, wp_tryConversion, wp_setField]
    exact dead_empty.ttlSet hg

lemma hincrGenericCommand_dead (hg : f ≠ g)
    (next : Option Bytes → Except String (Bytes × HashReply × HashCommand)) :
    (hincrGenericCommand ⟨now, true⟩ g next).wp (hashSpec ⟨now, true⟩) (fun s _ => s.Dead f t)
      ⟨m, False, []⟩ := by
  simp only [hincrGenericCommand, wp_bind, wp_hashTypeLookupWriteOrCreate]
  refine (hashTypeGetValue_dead h hnow g false).mono ?_
  rintro s r ⟨-, ⟨m', hdels', rfl, hdead, hr⟩ | ⟨hdels', rfl, rfl, -⟩⟩
  · simp only [wp_when, hr, false_implies, not_false_eq_true, true_implies, true_and]
    rcases next r.value with msg | ⟨new, reply, command⟩
    · exact hdead
    · simp only [wp_bind, wp_setField]
      exact hdead.ttlSet hg
  · simp only [wp_when, true_implies, not_true_eq_false, false_implies, and_true, wp_dbAdd]
    rcases next _ with msg | ⟨new, reply, command⟩
    · exact (dead_empty : empty.Dead f t)
    · simp only [wp_bind, wp_setField]
      exact dead_empty.ttlSet hg

lemma hgetexCommand_dead (ttl : GetexTtl) (fields : List Bytes) :
    (hgetexCommand ⟨now, true⟩ ttl fields).wp (hashSpec ⟨now, true⟩) (fun s _ => s.Dead f t)
      ⟨m, False, []⟩ := by
  unfold hgetexCommand
  rcases htime : hgetexTime ⟨now, true⟩ ttl with msg | expireAt
  · exact h
  cases m with
  | none => simp
  | some m =>
    simp only [wp_bind, wp_lookupKey, isSome_some, if_true]
    have hinit : (when (expireAt.isSome = true) setExInit).wp (hashSpec ⟨now, true⟩)
        (fun s _ => s = ⟨some m, expireAt.isSome = true, []⟩) ⟨some m, False, []⟩ := by
      cases expireAt <;> simp [wp_when]
    refine hinit.mono ?_
    rintro _ _ rfl
    refine (hgetexLoop_dead (hgetexTime_le_max htime) hnow (fun hs => eq_true hs) fields h []).mono
      ?_
    rintro _ r ⟨m', hdels', rfl, hdead⟩
    split_ifs
    · exact hdead
    · simpa using hdead.orDeleted

lemma hexpireGenericCommand_dead {arg : ExpireArg} {fields : List Bytes}
    (hresp : (HashCommand.hexpire arg cond fields).Respects now f ((m.getD .empty).ttl f)) :
    (hexpireGenericCommand ⟨now, true⟩ arg cond fields).wp (hashSpec ⟨now, true⟩)
      (fun s _ => s.Dead f t) ⟨m, False, []⟩ := by
  unfold hexpireGenericCommand
  cases hparse : parseExpireTime arg.commandName ⟨now, true⟩ arg with
  | error msg => exact h
  | ok e =>
    simp only [HashCommand.Respects, hparse] at hresp
    cases m with
    | none => simp
    | some m =>
      rw [KeySpec.dead_some] at h
      simp only [wp_bind, wp_lookupKey, isSome_some, if_true, wp_setExInit]
      refine (hexpireLoop_dead (parseExpireTime_le_max hparse) fields [] h fun hf => ?_).mono ?_
      · refine or_iff_not_imp_left.mpr fun hfuture e' he' => ?_
        refine hresp hf (by omega) e' he' ?_
        rcases h with hnone | ⟨v, e'', hsome, hlt⟩
        · rw [ttl, hnone] at he'
          cases he'
        · rw [ttl, hsome] at he'
          obtain rfl : e'' = e' := some_inj.mp he'
          omega
      · rintro _ r ⟨m', hdels', rfl, hdead⟩
        simpa using hdead.orDeleted

end

section

variable (hmax : ∀ u ∈ expireTime, u ≤ ebExpireTimeMax)
include hmax

lemma hsetexLoop_dead (hsupp : expireTime.isSome = true → supports = True)
    (fvs : List (Bytes × Bytes)) (hf : f ∉ fvs.map Prod.fst)
    (hdead : m.Dead f t) (hdels : List Bytes) :
    (hsetexLoop keepTtl expireTime fvs).wp (hashSpec ⟨now, true⟩)
      (fun s _ => ∃ m' hdels', s = ⟨some m', supports, hdels'⟩ ∧ m'.Dead f t)
      ⟨some m, supports, hdels⟩ := by
  cases expireTime with
  | none =>
    rw [wp_hsetexLoop_none]
    exact ⟨_, _, rfl, hdead.ttlSetAll hf⟩
  | some e =>
    obtain rfl : supports = True := hsupp rfl
    induction fvs generalizing m hdels with
    | nil => exact ⟨m, hdels, rfl, hdead⟩
    | cons gv fvs ih =>
      rw [List.map_cons, List.mem_cons, not_or] at hf
      rw [hsetexLoop, wp_bind, wp_setField, wp_bind, wp_setEx]
      refine ⟨⟨.inl rfl, hmax⟩, fun isHT => ?_⟩
      rw [wp_bind]
      refine (ih hf.2 ?_ _).mono fun s r hs => hs
      exact (hdead.ttlSet hf.1).congr (ttlSetEx_of_ne hf.1)

lemma hsetexApply_dead {cond : FieldCond} (hf : f ∉ fvs.map Prod.fst) (hdead : m.Dead f t) :
    (hsetexApply cond ttl expireTime fvs).wp (hashSpec ⟨now, true⟩) (fun s _ => s.Dead f t)
      ⟨some m, False, hdels⟩ := by
  simp only [hsetexApply, wp_bind, wp_tryConversion]
  have hinit : (when (expireTime.isSome = true) setExInit).wp (hashSpec ⟨now, true⟩)
      (fun s _ => s = ⟨some m, expireTime.isSome = true, hdels⟩) ⟨some m, False, hdels⟩ := by
    cases expireTime <;> simp [wp_when]
  refine hinit.mono ?_
  rintro _ _ rfl
  refine (hsetexLoop_dead hmax (fun hs => eq_true hs) fvs hf hdead hdels).mono ?_
  rintro _ _ ⟨m', hdels', rfl, hdead'⟩
  simpa using hdead'.orDeleted

lemma hsetexChecked_dead {cond : FieldCond} (hf : f ∉ fvs.map Prod.fst) (hdead : m.Dead f t) :
    (hsetexChecked ⟨now, true⟩ cond ttl expireTime fvs).wp (hashSpec ⟨now, true⟩)
      (fun s _ => s.Dead f t) ⟨some m, False, hdels⟩ := by
  unfold hsetexChecked
  split_ifs
  · exact hsetexApply_dead hmax hf hdead
  obtain ⟨found, expired, dels, hwp, -⟩ :=
    @hsetexCheck_spec ⟨now, true⟩ False cond (fvs.map Prod.fst) m hdels
  rw [wp_bind]
  refine hwp.of_eq ?_
  have hdead' := hdead.without dels
  split_ifs
  · by_cases hexpired : expired ≠ 0
    · simpa [wp_when, hexpired] using hdead'.orDeleted
    · simpa [wp_when, hexpired] using hdead'
  · exact hsetexApply_dead hmax hf hdead'

end

lemma hsetexCommand_dead {m : Option TtlMap} (h : KeySpec.Dead f t ⟨m, False, []⟩)
    {cond : FieldCond} (hf : f ∉ fvs.map Prod.fst) :
    (hsetexCommand ⟨now, true⟩ cond ttl fvs).wp (hashSpec ⟨now, true⟩) (fun s _ => s.Dead f t)
      ⟨m, False, []⟩ := by
  unfold hsetexCommand
  rcases htime : hsetexTime ⟨now, true⟩ ttl with msg | expireTime
  · exact h
  cases m with
  | none =>
    by_cases hcond : cond = .fxx
    · simp [hcond]
    · simpa [hcond, wp_when] using hsetexChecked_dead (hsetexTime_le_max htime) hf dead_empty
  | some m => simpa [wp_when] using hsetexChecked_dead (hsetexTime_le_max htime) hf h

/-- Every command keeps a dead field dead unless it supplies a value or gives it a time in the
future. -/
lemma hashCommand_dead (ld : LongDoubleText) {cmd : HashCommand} {m : Option TtlMap}
    (h : KeySpec.Dead f t ⟨m, False, []⟩) (hnow : t ≤ now) (hsupply : ¬ cmd.Supplies f)
    (hresp : cmd.Respects now f ((m.getD .empty).ttl f)) :
    (hashCommand ld ⟨now, true⟩ cmd).wp (hashSpec ⟨now, true⟩) (fun s _ => s.Dead f t)
      ⟨m, False, []⟩ := by
  cases cmd with
  | hset fvs =>
    obtain ⟨n, hn⟩ := @hsetLoop_spec ⟨now, true⟩ False [] fvs (m.getD .empty)
    simp only [hashCommand, hsetCommand, wp_bind, wp_hashTypeLookupWriteOrCreate,
      wp_tryConversion]
    refine hn.of_eq ?_
    exact TtlMap.Dead.ttlSetAll h hsupply
  | hsetnx g v => exact hsetnxCommand_dead h hnow hsupply v
  | hsetex cond ttl fvs => exact hsetexCommand_dead h hsupply
  | hincrby g incr =>
    simp only [hashCommand, hincrbyCommand]
    exact hincrGenericCommand_dead h hnow hsupply _
  | hincrbyfloat g incr =>
    simp only [hashCommand, hincrbyfloatCommand]
    cases ld.check incr with
    | some msg => exact h
    | none => exact hincrGenericCommand_dead h hnow hsupply _
  | hget g | hexists g | hstrlen g =>
    simp only [hashCommand, hgetCommand, hexistsCommand, hstrlenCommand]
    exact (readFieldCommand_dead h hnow g _).mono fun s r hs => hs.1
  | hmget fields =>
    simp only [hashCommand, hmgetCommand, wp_bind, wp_lookupKey]
    refine (hmgetLoop_dead hnow _ fields h fun hfound => ?_).mono fun s r hs => hs
    simpa using hfound
  | hgetex ttl fields => exact hgetexCommand_dead h hnow ttl fields
  | hgetdel fields =>
    cases m with
    | none => simp [hashCommand, hgetdelCommand]
    | some m =>
      obtain ⟨vs, expired, deleted, dels, hwp, -⟩ :=
        @hgetdelLoop_spec ⟨now, true⟩ False fields m []
      simp only [hashCommand, hgetdelCommand, wp_bind, wp_lookupKey, isSome_some,
        if_true]
      refine hwp.of_eq ?_
      have hdead : (m.without fields).Dead f t := TtlMap.Dead.without h fields
      split_ifs
      · exact hdead
      · simpa using hdead.orDeleted
  | hdel fields =>
    cases m with
    | none => simp [hashCommand, hdelCommand]
    | some m =>
      obtain ⟨n, b, hwp, -⟩ := @hdelLoop_spec ⟨now, true⟩ False [] fields m
      simp only [hashCommand, hdelCommand, wp_bind, wp_lookupKey, isSome_some,
        if_true]
      refine hwp.of_eq ?_
      cases b with
      | true => simp [wp_when]
      | false => simpa [wp_when] using TtlMap.Dead.without h fields
  | hpersist fields =>
    cases m with
    | none => simp [hashCommand, hpersistCommand]
    | some m =>
      simp only [hashCommand, hpersistCommand, wp_bind, wp_lookupKey, isSome_some,
        if_true, wp_encoding]
      intro enc _
      split_ifs
      · simpa [wp_noTtlLoop] using h
      · simp only [wp_bind, wp_hpersistLoop]
        have hdead : (fields.foldl (ttlPersist now) m).Dead f t := by
          refine List.foldlRecOn fields _ h fun m' hm' g _ => ?_
          exact TtlMap.Dead.ttlPersist hm' hnow g
        exact hdead
  | hexpire arg cond fields => exact hexpireGenericCommand_dead h hnow hresp
  | httl relative unit fields =>
    cases m with
    | none => simp [hashCommand, httlGenericCommand]
    | some m =>
      simp only [hashCommand, httlGenericCommand, wp_bind, wp_lookupKey,
        isSome_some, if_true, wp_encoding]
      rintro (_ | _ | _) _
      · simpa [wp_noTtlLoop] using h
      · simpa [wp_httlLoop] using h
      · simpa [wp_httlLoop] using h

lemma hashTypeExpireLoop_dead (fields : List Bytes)
    (hdead : m.Dead f t) (hdels : List Bytes) :
    (hashTypeExpireLoop now fields).wp (hashSpec ⟨now, true⟩)
      (fun s _ => ∃ m' hdels', s = ⟨some m', supports, hdels'⟩ ∧ m'.Dead f t)
      ⟨some m, supports, hdels⟩ := by
  induction fields generalizing m hdels with
  | nil => exact ⟨m, hdels, rfl, hdead⟩
  | cons g fields ih =>
    rw [hashTypeExpireLoop, wp_bind, wp_getField]
    rcases hg : m g with _ | ⟨v, _ | e⟩
    · exact ih hdead hdels
    · exact ih hdead hdels
    · by_cases he : e ≤ now
      · simp only [he, if_true, wp_bind, wp_deleteField, hg, isSome_some,
          wp_serverAssert, true_and, wp_propagateHashFieldDeletion]
        exact (ih (hdead.update_none g) _).mono fun s r hs => hs
      · simp only [he]
        exact ih hdead hdels

lemma hashTypeExpire_dead {m : Option TtlMap} (h : KeySpec.Dead f t ⟨m, False, []⟩)
    (fields : List Bytes) :
    (hashTypeExpire now fields).wp (hashSpec ⟨now, true⟩) (fun s _ => s.Dead f t)
      ⟨m, False, []⟩ := by
  cases m with
  | none => simp [hashTypeExpire]
  | some m =>
    simp only [hashTypeExpire, wp_bind, wp_lookupKey, isSome_some, if_true]
    refine (hashTypeExpireLoop_dead fields h []).mono ?_
    rintro _ n ⟨m', hdels', rfl, hdead⟩
    rw [wp_when, wp_deleteIfEmpty]
    exact ⟨fun _ => hdead.orDeleted, fun _ => hdead⟩

/-- One event keeps a dead field dead. -/
lemma hashEventStep_dead (ld : LongDoubleText) {slot : Option HashObj} {m : Option TtlMap}
    {e : TimedEvent} (hslot : SlotHolds slot m) (h : KeySpec.Dead f t ⟨m, False, []⟩)
    (hnow : t ≤ e.now) (hsupply : ¬ e.event.Supplies f)
    (hresp : e.event.Respects e.now f (slotTtl slot f)) :
    ∃ slot' m', hashEventStep ld slot e = some slot' ∧ SlotHolds slot' m' ∧
      KeySpec.Dead f t ⟨m', False, []⟩ := by
  obtain ⟨now, cfg, event⟩ := e
  cases event with
  | command cmd =>
    rw [hslot.slotTtl] at hresp
    obtain ⟨slot', s, r, hcall, hslot', hdead⟩ :=
      callHashCommand_of_wp hslot (hashCommand_dead ld h hnow hsupply hresp) cfg
    exact ⟨slot', s.map, by simp [hashEventStep, hcall], hslot', hdead⟩
  | expire fields =>
    obtain ⟨k, s, a, hrun, -, hslot', hdead⟩ :=
      hslot.run_of_wp (@hashTypeExpire_dead f t now m h fields) cfg
    exact ⟨k.slot, s.map, by simp [hashEventStep, hrun], hslot', hdead⟩
  | deleteKey => exact ⟨none, none, rfl, .inl ⟨rfl, rfl⟩, KeySpec.dead_none⟩

end Dead

/-- A field whose expiry time has passed stays dead until a command supplies a value for it or the
`HEXPIRE` family gives it a time in the future. -/
theorem expired_field_stays_dead (ld : LongDoubleText) {slot : Option HashObj} {m : Option TtlMap}
    (hslot : SlotHolds slot m) {f : Bytes} {e t : ℕ} (httl : slotTtl slot f = some e)
    (he : e < t) (events : List TimedEvent)
    (hevents : RunSatisfies (hashEventStep ld) (fun slot ev => t ≤ ev.now ∧
      ¬ ev.event.Supplies f ∧ ev.event.Respects ev.now f (slotTtl slot f)) slot events)
    (cfg : HashConfig) {now : ℕ} (hnow : t ≤ now) :
    ∃ slot' slot'' propagated, runSteps (hashEventStep ld) slot events = some slot' ∧
      callHashCommand ld cfg ⟨now, true⟩ slot' (.hget f) =
        some (slot'', .bulk none, propagated) := by
  have hdead : KeySpec.Dead f t ⟨m, False, []⟩ := by
    rw [hslot.slotTtl, TtlMap.ttl, bind_eq_some_iff] at httl
    obtain ⟨⟨v, e'⟩, hf, rfl⟩ := httl
    exact .inr ⟨v, e, hf, he⟩
  obtain ⟨slot', hrun, m', hslot', hdead'⟩ :=
    hevents.invariant (fun slot => ∃ m, SlotHolds slot m ∧ KeySpec.Dead f t ⟨m, False, []⟩)
      (fun s ev hev hs => by
        obtain ⟨m, hs, hdead⟩ := hs
        obtain ⟨s', m', hstep, hs', hdead'⟩ := hashEventStep_dead ld hs hdead hev.1 hev.2.1 hev.2.2
        exact ⟨s', hstep, m', hs', hdead'⟩) ⟨m, hslot, hdead⟩
  obtain ⟨slot'', s, r, hcall, -, -, hreply⟩ :=
    @callHashCommand_of_wp _ ld _ (.hget f) _ hslot' _
      (readFieldCommand_dead hdead' hnow f HashReply.bulk) cfg
  exact ⟨slot', slot'', _, hrun, by rw [hcall, hreply rfl]⟩

/-- The configuration of the following histories. -/
def defaultHashConfig : HashConfig := ⟨128, 64, List.length, fun _ _ => true⟩

/-- `HPERSIST`, `HEXPIRE` with a time in the past and another field's `HSET` do not bring a field
back that has expired at 10. -/
theorem expired_field_stays_dead_persist :
    let slot := some (HashObj.listpackEx [.str [97], .str [49], .int 10])
    let events : List TimedEvent := [⟨20, defaultHashConfig, .command (.hpersist [[97]])⟩,
      ⟨21, defaultHashConfig, .command (.hset [([98], [50])])⟩,
      ⟨22, defaultHashConfig, .command (.hexpire (.pxat 15) .gt [[97]])⟩]
    ∃ slot' slot'' propagated, runSteps (hashEventStep noLongDouble) slot events = some slot' ∧
      callHashCommand noLongDouble defaultHashConfig ⟨23, true⟩ slot' (.hget [97]) =
        some (slot'', .bulk none, propagated) := by
  have hsorted : SortedTriples [([97], [49], 10)] :=
    ⟨by simp, by simp, by decide⟩
  have hholds : SlotHolds (some (.listpackEx [.str [97], .str [49], .int 10]))
      (some (triplesMap [([97], [49], 10)])) := .inr ⟨_, _, rfl, rfl, _, rfl, hsorted, rfl⟩
  exact @expired_field_stays_dead noLongDouble _ _ hholds [97] 10 20 (by decide) (by decide) _
    (by decide +kernel) defaultHashConfig 23 (by decide)

/-- A field has expired at 10. `HPEXPIREAT` at 20 with the time 100 brings it back: `HGET` returns
its value at 21. -/
theorem expired_field_revived :
    (do
      let slot ← runSteps (hashEventStep noLongDouble) none
        [⟨5, defaultHashConfig, .command (.hset [([97], [49])])⟩,
          ⟨5, defaultHashConfig, .command (.hexpire (.pxat 10) .always [[97]])⟩]
      let slot' ← runSteps (hashEventStep noLongDouble) slot
        [⟨20, defaultHashConfig, .command (.hexpire (.pxat 100) .always [[97]])⟩]
      let r ← callHashCommand noLongDouble defaultHashConfig ⟨21, true⟩ slot' (.hget [97])
      return (slotTtl slot [97], r.2.1)) = some (some 10, HashReply.bulk (some [49])) := by
  decide +kernel

end RainCall
