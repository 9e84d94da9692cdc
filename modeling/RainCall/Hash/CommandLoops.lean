import RainCall.Hash.CommandSpec

/-!
# Loops over the fields of a command

What the loops of the commands do to the map, as far as the specification of the interface leaves
them no choice: reading fields with lazy expiration, setting them, deleting them and making them
persistent.
-/

namespace RainCall

open Function GetFieldRes List Option Program TtlMap

/-! ### Expired fields -/

/-- The expiry time of a field. -/
def TtlMap.ttl (m : TtlMap) (f : Bytes) : Option ℕ := (m f).bind Prod.snd

/-- The expiry time of a field of the hash at a key. -/
def slotTtl (slot : Option HashObj) (f : Bytes) : Option ℕ :=
  match slot with
  | none => none
  | some o => ((hashTypeGet o f).getD none).bind Prod.snd

lemma SlotHolds.slotTtl {slot : Option HashObj} {m : Option TtlMap} (h : SlotHolds slot m) :
    slotTtl slot = (m.getD .empty).ttl := by
  funext f
  rcases h with ⟨rfl, rfl⟩ | ⟨o, m', rfl, rfl, ho⟩
  · rfl
  · rw [RainCall.slotTtl, ho.hashTypeGet]
    rfl

/-- A master takes a field with this expiry time for expired. -/
def HashCtx.isExpired (ctx : HashCtx) (e : Option ℕ) : Bool :=
  ctx.isMaster && e.any fun e => decide (e < ctx.now)

/-- The value of a field that has not expired. -/
def TtlMap.live (ctx : HashCtx) (m : TtlMap) (f : Bytes) : Option Bytes :=
  if ctx.isExpired (m.ttl f) then none else (m f).map Prod.fst

/-- The map without some fields. -/
def TtlMap.without (m : TtlMap) (fs : List Bytes) : TtlMap := fun f => if f ∈ fs then none else m f

@[simp] lemma TtlMap.without_nil (m : TtlMap) : m.without [] = m := by
  funext f
  simp [without]

lemma TtlMap.without_update (m : TtlMap) (f : Bytes) (fs : List Bytes) :
    without (update m f none) fs = m.without (f :: fs) := by
  funext g
  by_cases hg : g = f <;> simp [without, hg]

lemma TtlMap.without_singleton (m : TtlMap) (f : Bytes) :
    m.without [f] = update m f none := by
  rw [← without_update, without_nil]

lemma TtlMap.without_append (m : TtlMap) (fs gs : List Bytes) :
    m.without (fs ++ gs) = (m.without fs).without gs := by
  funext g
  by_cases hg : g ∈ gs <;> simp [without, hg]

variable {m : TtlMap} {fs : List Bytes}

lemma TtlMap.without_of_forall (h : ∀ f ∈ fs, m f = none) :
    m.without fs = m := by
  funext g
  by_cases hg : g ∈ fs
  · simp [without, h g hg]
  · simp [without, hg]

variable {f g : Bytes}

lemma TtlMap.ttl_update_none {t : ℕ} (h : ttl (update m f none) g = some t) : m.ttl g = some t := by
  by_cases hg : g = f
  · subst hg
    simp [ttl] at h
  · simpa [ttl, hg] using h

lemma TtlMap.ttl_without {t : ℕ} (h : ttl (m.without fs) g = some t) : m.ttl g = some t := by
  by_cases hg : g ∈ fs
  · simp [ttl, without, hg] at h
  · simpa [ttl, without, hg] using h

/-- A value that is set with its expiry time kept. -/
lemma TtlMap.ttl_ttlSet_keep (m : TtlMap) (f v g : Bytes) :
    ttl (ttlSet m f v true) g = m.ttl g := by
  by_cases hg : g = f
  · subst hg
    simp [ttl, ttlSet]
  · simp [ttl, ttlSet, hg]

/-- A time in the past changes nothing or deletes the field. -/
lemma ttlSetEx_past {isHT : Bool} {now t : ℕ} {cond : ExpireSetCond} (hpast : t ≤ now) :
    (ttlSetEx isHT ⟨now, true⟩ m cond f (some t)).1 = m ∨
      (ttlSetEx isHT ⟨now, true⟩ m cond f (some t)).1 = update m f none := by
  cases hf : m f with
  | none => exact .inl (by simp [ttlSetEx, hf])
  | some x =>
    have hexp : HashCtx.alreadyExpired ⟨now, true⟩ t = true := by
      simp [HashCtx.alreadyExpired, hpast]
    simp only [ttlSetEx_of_some hf]
    split_ifs
    · exact .inl rfl
    · exact .inl rfl
    · exact .inr rfl

lemma ttl_of_ttlSetEx_past {isHT : Bool} {now t t' : ℕ} {cond : ExpireSetCond} (hpast : t ≤ now)
    (h : (ttlSetEx isHT ⟨now, true⟩ m cond f (some t)).1.ttl g = some t') : m.ttl g = some t' := by
  rcases @ttlSetEx_past m f isHT now t cond hpast with heq | heq
  · rwa [heq] at h
  · rw [heq] at h
    exact TtlMap.ttl_update_none h

lemma TtlMap.update_none_of_eq_none (h : m f = none) :
    update m f none = m := by
  rw [update_eq_self_iff, h]

/-- A field of the map that has expired is not live, so its deletion is not observed. -/
lemma TtlMap.live_update_none {ctx : HashCtx} (hexp : ctx.isExpired (m.ttl f) = true)
    (g : Bytes) :
    live ctx (update m f none) g = m.live ctx g := by
  by_cases hg : g = f
  · subst hg
    simp [live, hexp]
  · have hsame : update m f none g = m g := update_of_ne hg none m
    rw [live, live, ttl, ttl, hsame]

/-- A field that has expired after a deletion has expired before. -/
lemma TtlMap.isExpired_of_update_none {ctx : HashCtx}
    (h : ctx.isExpired (ttl (update m f none) g) = true) :
    ctx.isExpired (m.ttl g) = true := by
  by_cases hg : g = f
  · subst hg
    simp [ttl, HashCtx.isExpired] at h
  · simpa [ttl, hg] using h

/-- What `hashTypeGetValue` returns for a field that has not expired. -/
def GetFieldRes.ofValue : Option Bytes → GetFieldRes
  | some v => .ok v
  | none => .notFound

@[simp] lemma GetFieldRes.value_ofValue (v : Option Bytes) : (ofValue v).value = v := by
  cases v <;> rfl

@[simp] lemma GetFieldRes.ofValue_ne_expired (v : Option Bytes) : ofValue v ≠ .expired := by
  cases v <;> simp [ofValue]

@[simp] lemma GetFieldRes.ofValue_ne_expiredHash (v : Option Bytes) :
    ofValue v ≠ .expiredHash := by
  cases v <;> simp [ofValue]

section Loops

variable {ctx : HashCtx} {supports : Prop} {hdels : List Bytes}

/-- Lazy expiration of a field. -/
lemma wp_hashTypeGetValue {f : Bytes} {avoidHashDel : Bool} {Q : KeySpec → GetFieldRes → Prop} :
    (hashTypeGetValue ctx f avoidHashDel).wp (hashSpec ctx) Q ⟨some m, supports, hdels⟩ ↔
      (ctx.isExpired (m.ttl f) = false →
        Q ⟨some m, supports, hdels⟩ (.ofValue (m.live ctx f))) ∧
      (ctx.isExpired (m.ttl f) = true →
        (avoidHashDel = true ∨ update m f none ≠ empty →
          Q ⟨some (update m f none), supports, hdels ++ [f]⟩ .expired) ∧
        (avoidHashDel = false → update m f none = empty →
          Q ⟨none, supports, hdels ++ [f]⟩ .expiredHash)) := by
  unfold hashTypeGetValue
  rw [wp_bind, wp_getField]
  cases hf : m f with
  | none => simp [ttl, live, hf, HashCtx.isExpired, ofValue]
  | some x =>
    obtain ⟨v, e⟩ := x
    cases e with
    | none => simp [ttl, live, hf, HashCtx.isExpired, ofValue]
    | some e =>
      have hexp : ctx.isExpired (m.ttl f) = (ctx.isMaster && decide (e < ctx.now)) := by
        simp [ttl, hf, HashCtx.isExpired]
      by_cases hlive : e ≥ ctx.now ∨ ctx.isMaster = false
      · have hfalse : ctx.isExpired (m.ttl f) = false := by
          rw [hexp]
          rcases hlive with hlive | hlive
          · simp [Nat.not_lt.mpr hlive]
          · simp [hlive]
        simp only [hlive, if_true, hfalse, live, hf]
        simp [ofValue]
      · have htrue : ctx.isExpired (m.ttl f) = true := by
          rw [hexp]
          push Not at hlive
          simp [hlive.1, hlive.2]
        simp only [hlive, htrue]
        cases avoidHashDel with
        | true => simp [hf]
        | false => simp [hf, and_comm]

/-- The map of a key once an empty hash is deleted. -/
noncomputable def TtlMap.orDeleted (m : TtlMap) : Option TtlMap :=
  open Classical in if m = .empty then none else some m

variable {Q : KeySpec → Unit → Prop}

@[simp] lemma wp_deleteIfEmpty :
    deleteIfEmpty.wp (hashSpec ctx) Q ⟨some m, supports, hdels⟩ ↔
      Q ⟨m.orDeleted, supports, hdels⟩ () := by
  unfold deleteIfEmpty orDeleted
  by_cases hm : m = .empty <;> simp [wp_when, hm]

@[simp] lemma TtlMap.getD_orDeleted (m : TtlMap) : m.orDeleted.getD .empty = m := by
  unfold orDeleted
  split_ifs with hm
  · rw [hm, getD_none]
  · rw [getD_some]

@[simp] lemma wp_hashTypeLookupWriteOrCreate {m : Option TtlMap} :
    hashTypeLookupWriteOrCreate.wp (hashSpec ctx) Q ⟨m, False, hdels⟩ ↔
      Q ⟨some (m.getD .empty), False, hdels⟩ () := by
  unfold hashTypeLookupWriteOrCreate
  cases m <;> simp [wp_when]

/-! ### Setting and deleting fields -/

/-- Set fields one after the other. -/
def ttlSetAll (keepTtl : Bool) (m : TtlMap) (fvs : List (Bytes × Bytes)) : TtlMap :=
  fvs.foldl (fun m fv => ttlSet m fv.1 fv.2 keepTtl) m

lemma hsetLoop_spec (fvs : List (Bytes × Bytes)) (m : TtlMap) :
    ∃ n, (hsetLoop fvs).wp (hashSpec ctx)
      (fun t r => t = ⟨some (ttlSetAll false m fvs), supports, hdels⟩ ∧ r = n)
      ⟨some m, supports, hdels⟩ := by
  induction fvs generalizing m with
  | nil => exact ⟨0, rfl, rfl⟩
  | cons fv fvs ih =>
    obtain ⟨f, v⟩ := fv
    obtain ⟨n, hn⟩ := ih (ttlSet m f v false)
    refine ⟨n + (if (m f).isSome then 0 else 1), ?_⟩
    rw [hsetLoop, wp_bind, wp_setField, wp_bind]
    refine hn.of_eq ?_
    exact ⟨rfl, rfl⟩

/-- `HSETEX` without a new expiry time. -/
lemma wp_hsetexLoop_none {keepTtl : Bool} (fvs : List (Bytes × Bytes))
    {Q : KeySpec → ℕ → Prop} :
    (hsetexLoop keepTtl none fvs).wp (hashSpec ctx) Q ⟨some m, supports, hdels⟩ ↔
      Q ⟨some (ttlSetAll keepTtl m fvs), supports, hdels⟩ 0 := by
  induction fvs generalizing m with
  | nil => rfl
  | cons fv fvs ih =>
    simp [hsetexLoop, ih, ttlSetAll]

/-- The times that the commands accept are far below the largest one that the ebuckets hold. -/
lemma parseExpireTime_le {name : String} {arg : ExpireArg} {t : ℕ}
    (h : parseExpireTime name ctx arg = .ok t) : t ≤ hfeMaxAbsTimeMsec := by
  unfold parseExpireTime at h
  simp only at h
  split_ifs at h <;> cases h
  all_goals omega

lemma parseExpireTime_le_max {name : String} {arg : ExpireArg} {t : ℕ}
    (h : parseExpireTime name ctx arg = .ok t) : t ≤ ebExpireTimeMax :=
  (parseExpireTime_le h).trans (by decide)

/-- The expiry time that `HSETEX` sets is that of its argument. -/
lemma hsetexTime_cases {ttl : SetexTtl} {expireTime : Option ℕ}
    (h : hsetexTime ctx ttl = .ok expireTime) :
    expireTime = none ∧ (ttl = .discard ∨ ttl = .keepTtl) ∨ ∃ arg t, ttl = .expire arg ∧
      expireTime = some t ∧ parseExpireTime "hsetex" ctx arg = .ok t := by
  cases ttl with
  | discard | keepTtl => exact .inl ⟨(Except.ok.inj h).symm, by simp⟩
  | expire arg =>
    rw [hsetexTime] at h
    cases hparse : parseExpireTime "hsetex" ctx arg with
    | error msg =>
      rw [hparse] at h
      cases h
    | ok t =>
      rw [hparse] at h
      exact .inr ⟨arg, t, rfl, (Except.ok.inj h).symm, hparse⟩

lemma hsetexTime_le_max {ttl : SetexTtl} {expireTime : Option ℕ}
    (h : hsetexTime ctx ttl = .ok expireTime) : ∀ t ∈ expireTime, t ≤ ebExpireTimeMax := by
  rcases hsetexTime_cases h with ⟨rfl, -⟩ | ⟨arg, t, -, rfl, hparse⟩
  · simp
  · simpa using parseExpireTime_le_max hparse

/-- `HSETEX` with a new expiry time. -/
lemma wp_hsetexApply_some {cond : FieldCond} {ttl : SetexTtl} (hkeep : ttl ≠ .discard) (t : ℕ)
    (fvs : List (Bytes × Bytes)) {Q : KeySpec → CommandResult → Prop} :
    (hsetexApply cond ttl (some t) fvs).wp (hashSpec ctx) Q ⟨some m, supports, hdels⟩ ↔
      (hsetexLoop true (some t) fvs).wp (hashSpec ctx) (fun s n => deleteIfEmpty.wp (hashSpec ctx)
        (fun s _ => Q s ⟨.int 1, fvs.length, 0 < n, some (.hsetex cond (.expire (.pxat t)) fvs)⟩) s)
        ⟨some m, True, hdels⟩ := by
  simp [hsetexApply, wp_when, hkeep]

/-- `hdelLoop` deletes all fields, even if it stops before the last one. -/
lemma hdelLoop_spec (fields : List Bytes) (m : TtlMap) :
    ∃ n b, (hdelLoop fields).wp (hashSpec ctx)
        (fun t r => t = ⟨some (m.without fields), supports, hdels⟩ ∧ r = (n, b))
        ⟨some m, supports, hdels⟩ ∧
      (b = true → m.without fields = .empty) ∧ (n = 0 → m.without fields = m) := by
  induction fields generalizing m with
  | nil =>
    refine ⟨0, false, ⟨?_, rfl⟩, Bool.noConfusion, fun _ => m.without_nil⟩
    rw [m.without_nil]
  | cons f fields ih =>
    obtain ⟨n, b, hwp, hb, hn⟩ := ih (update m f none)
    rw [without_update] at hwp hb hn
    cases hf : m f with
    | none =>
      refine ⟨n, b, ?_, hb, fun h => (hn h).trans (update_none_of_eq_none hf)⟩
      simpa [hdelLoop, hf] using hwp
    | some x =>
      by_cases hempty : update m f none = empty
      · have hall : m.without (f :: fields) = .empty := by
          rw [← without_update, hempty]
          exact without_of_forall fun _ _ => rfl
        refine ⟨1, true, ?_, fun _ => hall, Nat.noConfusion⟩
        simp [hdelLoop, hf, hempty, hall]
      · refine ⟨n + 1, b, ?_, hb, Nat.noConfusion⟩
        simp only [hdelLoop, wp_bind, wp_deleteField, hf, isSome_some, if_true,
          wp_isEmpty, hempty, false_implies, true_and, ne_eq, not_false_eq_true, true_implies,
          Bool.false_eq_true, if_false]
        refine hwp.of_eq ?_
        exact ⟨rfl, rfl⟩

/-- `hgetdelLoop` leaves none of its fields, whether they have expired or not. -/
lemma hgetdelLoop_spec (fields : List Bytes) (m : TtlMap) (hdels : List Bytes) :
    ∃ vs expired deleted dels, (hgetdelLoop ctx fields).wp (hashSpec ctx)
        (fun t r => t = ⟨some (m.without fields), supports, hdels ++ dels⟩ ∧
          r = (vs, expired, deleted)) ⟨some m, supports, hdels⟩ ∧
      dels ⊆ fields ∧ (deleted = 0 → m.without fields = m.without dels) := by
  induction fields generalizing m hdels with
  | nil =>
    refine ⟨[], 0, 0, [], ⟨?_, rfl⟩, nil_subset _, fun _ => rfl⟩
    rw [m.without_nil, append_nil]
  | cons f fields ih =>
    cases hexp : ctx.isExpired (m.ttl f) with
    | true =>
      obtain ⟨vs, expired, deleted, dels, hwp, hsub, hdel⟩ :=
        ih (update m f none) (hdels ++ [f])
      rw [without_update] at hwp hdel
      refine ⟨none :: vs, expired + 1, deleted, f :: dels, ?_, cons_subset_cons f hsub,
        fun h => by rw [hdel h, without_update]⟩
      simp only [hgetdelLoop, wp_bind, wp_hashTypeGetValue, hexp, Bool.true_eq_false,
        false_implies, true_and, true_or, true_implies, wp_when, value,
        isSome_none, Bool.false_eq_true, not_false_eq_true, and_true]
      refine hwp.of_eq ?_
      simp
    | false =>
      cases hf : m f with
      | none =>
        obtain ⟨vs, expired, deleted, dels, hwp, hsub, hdel⟩ := ih m hdels
        have hupdate := update_none_of_eq_none hf
        have hlive : m.live ctx f = none := by simp [live, hf]
        refine ⟨none :: vs, expired, deleted, dels, ?_, subset_cons_of_subset f hsub,
          fun h => by rw [← without_update, hupdate, hdel h]⟩
        simp only [hgetdelLoop, wp_bind, wp_hashTypeGetValue, hexp, Bool.false_eq_true,
          false_implies, and_true, true_implies, hlive]
        refine hwp.of_eq ?_
        rw [← without_update, hupdate]
        simp
      | some x =>
        obtain ⟨vs, expired, deleted, dels, hwp, hsub, hdel⟩ := ih (update m f none) hdels
        rw [without_update] at hwp hdel
        have hlive : m.live ctx f = some x.1 := by simp [live, hf, hexp]
        refine ⟨some x.1 :: vs, expired, deleted + 1, dels, ?_, subset_cons_of_subset f hsub,
          Nat.noConfusion⟩
        simp only [hgetdelLoop, wp_bind, wp_hashTypeGetValue, hexp, Bool.false_eq_true,
          false_implies, and_true, true_implies, wp_when, value_ofValue, hlive,
          isSome_some, not_true_eq_false, wp_deleteField, hf, wp_serverAssert, true_and]
        refine hwp.of_eq ?_
        simp

/-! ### Expiry times that are removed or read -/

/-- `HPERSIST` on a field. -/
def ttlPersist (now : ℕ) (m : TtlMap) (f : Bytes) : TtlMap :=
  match m f with
  | some (v, some e) => if e < now then m else Function.update m f (some (v, none))
  | _ => m

def persistReply (now : ℕ) (m : TtlMap) (f : Bytes) : ℤ :=
  match m f with
  | none => -2
  | some (_, none) => -1
  | some (_, some e) => if e < now then -2 else 1

/-- The replies of `HPERSIST`. -/
def persistReplies (now : ℕ) : TtlMap → List Bytes → List ℤ
  | _, [] => []
  | m, f :: fs => persistReply now m f :: persistReplies now (ttlPersist now m f) fs

lemma wp_hpersistField {f : Bytes} {Q : KeySpec → ℤ → Prop} :
    (hpersistField ctx f).wp (hashSpec ctx) Q ⟨some m, supports, hdels⟩ ↔
      Q ⟨some (ttlPersist ctx.now m f), supports, hdels⟩ (persistReply ctx.now m f) := by
  unfold hpersistField ttlPersist persistReply
  rw [wp_bind, wp_getField]
  cases hf : m f with
  | none => simp
  | some x =>
    obtain ⟨v, _ | e⟩ := x
    · simp
    · by_cases he : e < ctx.now
      · simp [he]
      · simp [he, wp_persistField hf]

variable {Q : KeySpec → List ℤ → Prop}

lemma wp_hpersistLoop (fields : List Bytes) :
    (hpersistLoop ctx fields).wp (hashSpec ctx) Q ⟨some m, supports, hdels⟩ ↔
      Q ⟨some (fields.foldl (ttlPersist ctx.now) m), supports, hdels⟩
        (persistReplies ctx.now m fields) := by
  induction fields generalizing m Q with
  | nil => rfl
  | cons f fields ih => simp [hpersistLoop, wp_hpersistField, ih, persistReplies]

/-- Without expiry times there is nothing to remove. -/
lemma foldl_ttlPersist_of_no_ttl {now : ℕ} (hm : ∀ f v e, m f ≠ some (v, some e))
    (fields : List Bytes) :
    fields.foldl (ttlPersist now) m = m ∧
      persistReplies now m fields = fields.map fun f => if (m f).isSome then -1 else -2 := by
  induction fields with
  | nil => exact ⟨rfl, rfl⟩
  | cons f fields ih =>
    have hstep : ttlPersist now m f = m ∧
        persistReply now m f = if (m f).isSome then -1 else -2 := by
      unfold ttlPersist persistReply
      rcases hf : m f with _ | ⟨v, _ | e⟩
      · simp
      · simp
      · exact absurd hf (hm f v e)
    simp only [foldl_cons, persistReplies, hstep.1, hstep.2, ih.1, ih.2, map_cons,
      and_self]

lemma wp_noTtlLoop (fields : List Bytes) :
    (noTtlLoop fields).wp (hashSpec ctx) Q ⟨some m, supports, hdels⟩ ↔
      Q ⟨some m, supports, hdels⟩ (fields.map fun f => if (m f).isSome then -1 else -2) := by
  induction fields generalizing Q with
  | nil => rfl
  | cons f fields ih => simp [noTtlLoop, ih]

def httlReply (isExpired : ℕ → Bool) (basetime : ℕ) (unit : TimeUnit) (m : TtlMap)
    (f : Bytes) : ℤ :=
  match m f with
  | none => -2
  | some (_, none) => -1
  | some (_, some expire) =>
    if isExpired expire then -2
    else if unit = .seconds then ((expire : ℤ) + 999 - basetime) / 1000
    else (expire : ℤ) - basetime

lemma wp_httlLoop (isExpired : ℕ → Bool) (basetime : ℕ) (unit : TimeUnit)
    (fields : List Bytes) :
    (httlLoop isExpired basetime unit fields).wp (hashSpec ctx) Q ⟨some m, supports, hdels⟩ ↔
      Q ⟨some m, supports, hdels⟩ (fields.map (httlReply isExpired basetime unit m)) := by
  induction fields generalizing Q with
  | nil => rfl
  | cons f fields ih =>
    simp only [httlLoop, wp_bind, wp_getField, ih]
    rfl

/-! ### The condition of `HSETEX` -/

/-- `hsetexCheck` deletes fields that have expired and decides the condition. -/
lemma hsetexCheck_spec (cond : FieldCond) (fields : List Bytes) (m : TtlMap)
    (hdels : List Bytes) :
    ∃ found expired dels, (hsetexCheck ctx cond fields).wp (hashSpec ctx)
        (fun t r => t = ⟨some (m.without dels), supports, hdels ++ dels⟩ ∧ r = (found, expired))
        ⟨some m, supports, hdels⟩ ∧
      (∀ f ∈ dels, ctx.isExpired (m.ttl f) = true) ∧
      (cond = .fnx → (found = 0 ↔ ∀ f ∈ fields, m.live ctx f = none) ∧
        (found = 0 → ∀ f ∈ fields, m.without dels f = none)) ∧
      (cond = .fxx → (found = fields.length ↔ ∀ f ∈ fields, m.live ctx f ≠ none)) := by
  induction fields generalizing m hdels with
  | nil => exact ⟨0, 0, [], by simp [hsetexCheck], by simp, by simp, by simp⟩
  | cons f fields ih =>
    cases hexp : ctx.isExpired (m.ttl f) with
    | true =>
      have hlive : m.live ctx f = none := by simp [live, hexp]
      by_cases hcond : cond = .fxx
      · -- A field that has expired does not exist, which decides `FXX`.
        refine ⟨0, 1, [f], ?_, by simpa using hexp, by simp [hcond], fun _ => by simp [hlive]⟩
        simp [hsetexCheck, wp_hashTypeGetValue, hexp, hcond, value,
          without_singleton]
      · obtain ⟨found, expired, dels, hwp, hdels', hfnx, hfxx⟩ :=
          ih (update m f none) (hdels ++ [f])
        simp only [live_update_none hexp, without_update] at hwp hfnx
        refine ⟨found, 1 + expired, f :: dels, ?_, ?_, fun h => ⟨?_, fun h0 => ?_⟩,
          fun h => absurd h hcond⟩
        · simp only [hsetexCheck, wp_bind, wp_hashTypeGetValue, hexp, Bool.true_eq_false,
            false_implies, true_and, true_or, true_implies, value, isSome_none,
            Bool.false_eq_true, if_false, hcond, false_and, false_or, zero_ne_one, and_false,
            and_true, if_true]
          refine hwp.of_eq ?_
          simp
        · intro g hg
          rcases mem_cons.mp hg with rfl | hg
          · exact hexp
          · exact isExpired_of_update_none (hdels' g hg)
        · rw [(hfnx h).1]
          simp [hlive]
        · intro g hg
          rcases mem_cons.mp hg with rfl | hg
          · simp [without]
          · exact (hfnx h).2 h0 g hg
    | false =>
      obtain ⟨found, expired, dels, hwp, hdels', hfnx, hfxx⟩ := ih m hdels
      cases hlive : m.live ctx f with
      | none =>
        by_cases hcond : cond = .fxx
        · refine ⟨0, 0, [], ?_, by simp, by simp [hcond], fun _ => by simp [hlive]⟩
          simp [hsetexCheck, wp_hashTypeGetValue, hexp, hcond, hlive]
        · refine ⟨found, expired, dels, ?_, hdels', fun h => ⟨?_, fun h0 => ?_⟩,
            fun h => absurd h hcond⟩
          · simp only [hsetexCheck, wp_bind, wp_hashTypeGetValue, hexp, Bool.false_eq_true,
              false_implies, and_true, true_implies, value_ofValue, hlive,
              isSome_none, if_false, hcond, false_and, false_or, zero_ne_one, and_false,
              ofValue_ne_expired]
            refine hwp.of_eq ?_
            simp
          · rw [(hfnx h).1]
            simp [hlive]
          · intro g hg
            rcases mem_cons.mp hg with rfl | hg
            · have hg : m g = none := by simpa [live, hexp] using hlive
              simp [without, hg]
            · exact (hfnx h).2 h0 g hg
      | some v =>
        by_cases hcond : cond = .fnx
        · refine ⟨1, 0, [], ?_, by simp, fun _ => by simp [hlive], by simp [hcond]⟩
          simp [hsetexCheck, wp_hashTypeGetValue, hexp, hcond, hlive]
        · refine ⟨1 + found, expired, dels, ?_, hdels', fun h => absurd h hcond, fun h => ?_⟩
          · simp only [hsetexCheck, wp_bind, wp_hashTypeGetValue, hexp, Bool.false_eq_true,
              false_implies, and_true, true_implies, value_ofValue, hlive,
              isSome_some, if_true, hcond, false_and, or_false, one_ne_zero, and_false,
              ofValue_ne_expired, if_false]
            refine hwp.of_eq ?_
            simp
          · have hiff := hfxx h
            rw [length_cons, add_comm, Nat.add_right_cancel_iff, hiff]
            simp [hlive]

end Loops

end RainCall
