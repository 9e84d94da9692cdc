import RainCall.Hash.CommandLoops

/-!
# Commands on a replica

A replica executes the commands of its master and takes no field for expired, except in `HPERSIST`.
So what a propagated command does to the fields is a function of the fields: `ttlSetAll`,
`TtlMap.without`, `ttlPersist`, `ttlExpire` and `setexMap`. `ReplicatesTo` says where a sequence of
propagated commands leads, at whatever times it is executed.
-/

namespace RainCall

open Function HashProg List Option Program TtlMap

/-- When and under which configuration a replica executes a command. -/
abbrev ReplicaEnv := ℕ × HashConfig

/-- A replica executes propagated commands one after the other. The environments are those of the
first commands; `rest` is that of all others. -/
def replicaApply (ld : LongDoubleText) (rest : ReplicaEnv) :
    List ReplicaEnv → Option HashObj → List HashCommand → Option (Option HashObj)
  | _, slot, [] => some slot
  | envs, slot, cmd :: cmds => do
    let env := envs.headD rest
    let r ← callHashCommand ld env.2 ⟨env.1, false⟩ slot cmd
    replicaApply ld rest envs.tail r.1 cmds

/-! ### Commands on a replica -/

/-- The hash at the key has these fields. -/
def SlotFields (slot : Option HashObj) (m : TtlMap) : Prop :=
  ∃ k, SlotHolds slot k ∧ k.getD .empty = m

/-- The `HEXPIRE` family on a replica: the time is never too late. -/
def ttlExpire (cond : ExpireSetCond) (t : ℕ) (m : TtlMap) (f : Bytes) : TtlMap :=
  match m f with
  | none => m
  | some (v, prev) => if cond.allows prev t then Function.update m f (some (v, some t)) else m

/-- `HSETEX` with a time that is not too late. -/
def ttlSetTime (t : ℕ) (m : TtlMap) (fvs : List (Bytes × Bytes)) : TtlMap :=
  fvs.foldl (fun m fv => Function.update m fv.1 (some (fv.2, some t))) m

section Replica

variable {now : ℕ} {m : TtlMap} {k : Option TtlMap} {hdels : List Bytes}

/-- A replica takes every field for live. -/
lemma isExpired_replica (e : Option ℕ) : HashCtx.isExpired ⟨now, false⟩ e = false := by
  simp [HashCtx.isExpired]

variable {ctx : HashCtx} {cond : FieldCond} {ttl : SetexTtl} {expireTime : Option ℕ}
  {supports : Prop} {fvs : List (Bytes × Bytes)}

/-- Where the time is not too late, `hashTypeSetEx` does not depend on the encoding. -/
lemma ttlSetEx_of_not_expired {isHT : Bool} {cond : ExpireSetCond} {t : ℕ}
    (ht : ctx.alreadyExpired t = false) (f : Bytes) :
    (ttlSetEx isHT ctx m cond f (some t)).1 = ttlExpire cond t m f ∧
      (ttlSetEx isHT ctx m cond f (some t)).2 ≠ .deleted := by
  unfold ttlExpire
  cases hf : m f with
  | none => simp [ttlSetEx, hf]
  | some x =>
    obtain ⟨v, prev⟩ := x
    rw [ttlSetEx_some_of_not_expired hf ht]
    by_cases hallow : cond.allows prev t = true
    · simp [hallow]
    · simp [hallow]

lemma wp_hexpireLoop_replica {cond : ExpireSetCond} {t : ℕ} (ht : t ≠ 0)
    (hmax : t ≤ ebExpireTimeMax) (fields : List Bytes) (m : TtlMap) :
    (hexpireLoop cond t fields).wp (hashSpec ⟨now, false⟩)
      (fun s _ => s = ⟨some (fields.foldl (ttlExpire cond t) m), True, hdels⟩)
      ⟨some m, True, hdels⟩ := by
  induction fields generalizing m with
  | nil => rfl
  | cons f fields ih =>
    rw [hexpireLoop, wp_bind, wp_setEx]
    refine ⟨⟨.inr (by simpa using ht), by simpa using hmax⟩, fun isHT => ?_⟩
    obtain ⟨hmap, hres⟩ := @ttlSetEx_of_not_expired m ⟨now, false⟩ isHT cond t rfl f
    rw [hmap, if_neg hres, wp_bind]
    exact (ih _).mono fun _ _ hs => hs

lemma wp_hsetexLoop_of_not_expired {t : ℕ} (ht : ctx.alreadyExpired t = false) (hzero : t ≠ 0)
    (hmax : t ≤ ebExpireTimeMax) (fvs : List (Bytes × Bytes)) (m : TtlMap) :
    (hsetexLoop true (some t) fvs).wp (hashSpec ctx)
      (fun s n => s = ⟨some (ttlSetTime t m fvs), True, hdels⟩ ∧ n = 0) ⟨some m, True, hdels⟩ := by
  induction fvs generalizing m with
  | nil => exact ⟨rfl, rfl⟩
  | cons fv fvs ih =>
    obtain ⟨f, v⟩ := fv
    rw [hsetexLoop, wp_bind, wp_setField, wp_bind, wp_setEx]
    refine ⟨⟨.inr (by simpa using hzero), by simpa using hmax⟩, fun isHT => ?_⟩
    obtain ⟨hmap, hres⟩ := @ttlSetEx_of_not_expired (ttlSet m f v true) ctx isHT .always t ht f
    have hset : ttlExpire .always t (ttlSet m f v true) f =
        update m f (some (v, some t)) := by
      simp only [ttlExpire, ttlSet, update_self, update_idem]
      rw [if_pos]
      cases (m f).bind Prod.snd <;> rfl
    simp only [hmap, hset, hres, wp_bind]
    refine (ih _).of_eq ?_
    exact ⟨rfl, rfl⟩

/-- A time that has been accepted is accepted again when it is propagated. -/
lemma parseExpireTime_pxat {name name' : String} {ctx' : HashCtx} {arg : ExpireArg} {t : ℕ}
    (h : parseExpireTime name ctx arg = .ok t) :
    parseExpireTime name' ctx' (.pxat t) = .ok t := by
  have hle : (t : ℤ) ≤ hfeMaxAbsTimeMsec := Int.ofNat_le.mpr (parseExpireTime_le h)
  unfold parseExpireTime ExpireArg.pxat
  simp [Int.not_lt.mpr hle]

/-- The command leads a replica from the fields of `k` to the fields `m`. -/
def LeadsReplica (ld : LongDoubleText) (now : ℕ) (cmd : HashCommand) (k : Option TtlMap)
    (m : TtlMap) : Prop :=
  (hashCommand ld ⟨now, false⟩ cmd).wp (hashSpec ⟨now, false⟩) (fun s _ => s.map.getD .empty = m)
    ⟨k, False, []⟩

lemma hset_replica (ld : LongDoubleText) (fvs : List (Bytes × Bytes)) :
    LeadsReplica ld now (.hset fvs) k (ttlSetAll false (k.getD .empty) fvs) := by
  obtain ⟨n, hn⟩ := @hsetLoop_spec ⟨now, false⟩ False [] fvs (k.getD .empty)
  simp only [LeadsReplica, hashCommand, hsetCommand, wp_bind, wp_hashTypeLookupWriteOrCreate,
    wp_tryConversion]
  refine hn.of_eq ?_
  rfl

lemma hdel_replica (ld : LongDoubleText) (fields : List Bytes) :
    LeadsReplica ld now (.hdel fields) k ((k.getD .empty).without fields) := by
  unfold LeadsReplica
  cases k with
  | none =>
    simp only [hashCommand, hdelCommand, wp_bind, wp_lookupKey]
    exact (without_of_forall fun _ _ => rfl).symm
  | some m =>
    obtain ⟨n, b, hwp, hempty, -⟩ := @hdelLoop_spec ⟨now, false⟩ False [] fields m
    simp only [hashCommand, hdelCommand, wp_bind, wp_lookupKey, isSome_some, if_true]
    refine hwp.of_eq ?_
    cases b with
    | true => simpa [wp_when] using (hempty rfl).symm
    | false => simp [wp_when]

lemma hpersist_replica (ld : LongDoubleText) (fields : List Bytes) :
    LeadsReplica ld now (.hpersist fields) k
      (fields.foldl (ttlPersist now) (k.getD .empty)) := by
  unfold LeadsReplica
  cases k with
  | none =>
    have hnone := @foldl_ttlPersist_of_no_ttl empty now (by simp [empty]) fields
    simp [hashCommand, hpersistCommand, hnone.1]
  | some m =>
    simp only [hashCommand, hpersistCommand, wp_bind, wp_lookupKey, isSome_some,
      if_true, wp_encoding]
    intro enc henc
    by_cases hlp : enc = .listpack
    · have hnone := @foldl_ttlPersist_of_no_ttl m now (henc hlp) fields
      simp [hlp, wp_noTtlLoop, hnone.1]
    · simp [hlp, wp_hpersistLoop]

lemma hexpire_replica (ld : LongDoubleText) {t : ℕ} (hparse : ∀ name ctx,
    parseExpireTime name ctx (.pxat t) = .ok t) (ht : t ≠ 0) (cond : ExpireSetCond)
    (fields : List Bytes) :
    LeadsReplica ld now (.hexpire (.pxat t) cond fields) k
      (fields.foldl (ttlExpire cond t) (k.getD .empty)) := by
  simp only [LeadsReplica, hashCommand, hexpireGenericCommand, hparse]
  cases k with
  | none =>
    have hnone : fields.foldl (ttlExpire cond t) empty = empty :=
      foldl_fixed' (fun _ => rfl) fields
    simp [hnone]
  | some m =>
    simp only [wp_bind, wp_lookupKey, isSome_some, if_true, wp_setExInit]
    refine (wp_hexpireLoop_replica ht (parseExpireTime_le_max (hparse "" ⟨0, true⟩)) fields m).mono
      ?_
    rintro _ _ rfl
    simp

/-- The fields meet the condition of `HSETEX`. -/
def FieldCond.Met (cond : FieldCond) (m : TtlMap) (fields : List Bytes) : Prop :=
  match cond with
  | .any => True
  | .fnx => ∀ f ∈ fields, m f = none
  | .fxx => ∀ f ∈ fields, m f ≠ none

/-- The fields that `HSETEX` leaves behind if the time is not too late. -/
def setexMap (ttl : SetexTtl) (expireTime : Option ℕ) (m : TtlMap)
    (fvs : List (Bytes × Bytes)) : TtlMap :=
  match expireTime with
  | none => ttlSetAll (ttl ≠ .discard) m fvs
  | some t => ttlSetTime t m fvs

/-- The expiry option of `HSETEX` as it is propagated. -/
def SetexTtl.propagated (ttl : SetexTtl) (expireTime : Option ℕ) : SetexTtl :=
  match expireTime with
  | some t => .expire (.pxat t)
  | none => ttl

/-- `HSETEX` with a time that is not too late, on a master and on a replica. -/
lemma hsetexApply_effect
    (htime : ∀ t, expireTime = some t → ctx.alreadyExpired t = false ∧ t ≠ 0 ∧ ttl ≠ .discard)
    (hmax : ∀ t ∈ expireTime, t ≤ ebExpireTimeMax)
    (fvs : List (Bytes × Bytes)) (m : TtlMap) :
    (hsetexApply cond ttl expireTime fvs).wp (hashSpec ctx)
      (fun s r => s.map.getD .empty = setexMap ttl expireTime m fvs ∧ s.hdels = hdels ∧
        r = ⟨.int 1, fvs.length, false, some (.hsetex cond (ttl.propagated expireTime) fvs)⟩)
      ⟨some m, supports, hdels⟩ := by
  cases expireTime with
  | none =>
    simp [hsetexApply, wp_when, wp_hsetexLoop_none, setexMap, SetexTtl.propagated]
  | some t =>
    obtain ⟨hexp, hzero, hdiscard⟩ := htime t rfl
    rw [wp_hsetexApply_some hdiscard]
    refine (wp_hsetexLoop_of_not_expired hexp hzero (hmax t rfl) fvs m).of_eq ?_
    simp [setexMap, SetexTtl.propagated]

lemma hsetexChecked_replica (htime : ∀ t, expireTime = some t → t ≠ 0 ∧ ttl ≠ .discard)
    (hmax : ∀ t ∈ expireTime, t ≤ ebExpireTimeMax) {m : TtlMap}
    (hmet : cond.Met m (fvs.map Prod.fst)) :
    (hsetexChecked ⟨now, false⟩ cond ttl expireTime fvs).wp (hashSpec ⟨now, false⟩)
      (fun s _ => s.map.getD .empty = setexMap ttl expireTime m fvs) ⟨some m, supports, hdels⟩ := by
  have happly : ∀ hdels, (hsetexApply cond ttl expireTime fvs).wp (hashSpec ⟨now, false⟩)
      (fun s _ => s.map.getD .empty = setexMap ttl expireTime m fvs) ⟨some m, supports, hdels⟩ :=
    fun hdels =>
      (hsetexApply_effect (fun t ht => ⟨rfl, htime t ht⟩) hmax fvs m).mono fun _ _ h => h.1
  unfold hsetexChecked
  split_ifs
  · exact happly hdels
  obtain ⟨found, expired, dels, hwp, hdels', hfnx, hfxx⟩ :=
    @hsetexCheck_spec ⟨now, false⟩ supports cond (fvs.map Prod.fst) m hdels
  obtain rfl : dels = [] := by
    refine eq_nil_iff_forall_not_mem.mpr fun f hf => ?_
    have hexp := hdels' f hf
    cases hexp
  have hlive : ∀ f, m.live ⟨now, false⟩ f = none ↔ m f = none := by
    intro f
    simp [live, isExpired_replica]
  have hpass : ¬ ((cond = .fnx ∧ found ≠ 0) ∨ (cond = .fxx ∧ found ≠ fvs.length)) := by
    rintro (⟨rfl, hne⟩ | ⟨rfl, hne⟩)
    · exact hne ((hfnx rfl).1.mpr fun f hf => (hlive f).mpr (hmet f hf))
    · refine hne ?_
      rw [← length_map Prod.fst, hfxx rfl]
      exact fun f hf hnone => hmet f hf ((hlive f).mp hnone)
  rw [wp_bind]
  refine hwp.of_eq ?_
  rw [if_neg hpass]
  exact happly _

lemma hsetex_replica (ld : LongDoubleText) (hparse : hsetexTime ⟨now, false⟩ ttl = .ok expireTime)
    (htime : ∀ t, expireTime = some t → t ≠ 0)
    (hmet : cond.Met (k.getD .empty) (fvs.map Prod.fst)) :
    LeadsReplica ld now (.hsetex cond ttl fvs) k (setexMap ttl expireTime (k.getD .empty) fvs) := by
  have htime' : ∀ t, expireTime = some t → t ≠ 0 ∧ ttl ≠ .discard := by
    rintro t rfl
    refine ⟨htime t rfl, ?_⟩
    rintro rfl
    cases hparse
  simp only [LeadsReplica, hashCommand, hsetexCommand, hparse, wp_bind]
  cases k with
  | some m => simpa [wp_when] using hsetexChecked_replica htime' (hsetexTime_le_max hparse) hmet
  | none =>
    by_cases hcond : cond = .fxx
    · -- `FXX` on a missing key is met only if there are no fields.
      obtain rfl : fvs = [] := by
        refine eq_nil_iff_forall_not_mem.mpr fun fv hfv => ?_
        subst hcond
        exact hmet fv.1 (mem_map_of_mem hfv) rfl
      cases expireTime <;> simp [hcond, setexMap, ttlSetAll, ttlSetTime]
    · simpa [hcond, wp_when] using hsetexChecked_replica htime' (hsetexTime_le_max hparse) hmet

end Replica

/-! ### Sequences of propagated commands -/

/-- Whenever the replica executes the commands, at times that satisfy `late`, they lead from the
fields `m` to the fields `m'`. -/
def ReplicatesTo (ld : LongDoubleText) (late : ℕ → Prop) (cmds : List HashCommand)
    (m m' : TtlMap) : Prop :=
  ∀ rest envs slot, (∀ env ∈ rest :: envs, late env.1) → SlotFields slot m →
    ∃ slot', replicaApply ld rest envs slot cmds = some slot' ∧ SlotFields slot' m'

section ReplicatesTo

variable {ld : LongDoubleText} {late : ℕ → Prop} {cmds : List HashCommand} {m m' m₁ : TtlMap}

lemma ReplicatesTo.nil : ReplicatesTo ld late [] m m :=
  fun _ envs slot _ hslot => ⟨slot, by cases envs <;> rfl, hslot⟩

lemma ReplicatesTo.cons {cmd : HashCommand}
    (hcmd : ∀ now k, late now → k.getD .empty = m → LeadsReplica ld now cmd k m₁)
    (h : ReplicatesTo ld late cmds m₁ m') : ReplicatesTo ld late (cmd :: cmds) m m' := by
  rintro rest envs slot hlate ⟨k, hk, hm⟩
  have hhead : late (envs.headD rest).1 := by
    cases envs with
    | nil => exact hlate rest mem_cons_self
    | cons env envs => exact hlate env (mem_cons_of_mem _ mem_cons_self)
  obtain ⟨slot1, s, r, hcall, hslot1, hmap⟩ :=
    callHashCommand_of_wp hk (hcmd _ k hhead hm) (envs.headD rest).2
  have htail : ∀ env ∈ rest :: envs.tail, late env.1 := by
    intro env henv
    rcases mem_cons.mp henv with rfl | henv
    · exact hlate _ mem_cons_self
    · exact hlate env (mem_cons_of_mem _ (mem_of_mem_tail henv))
  obtain ⟨slot', happly, hslot'⟩ := h rest envs.tail slot1 htail ⟨s.map, hslot1, hmap⟩
  refine ⟨slot', ?_, hslot'⟩
  simp only [replicaApply, hcall, happly, bind_eq_bind, bind_some]

lemma ReplicatesTo.single {cmd : HashCommand}
    (hcmd : ∀ now k, late now → k.getD .empty = m → LeadsReplica ld now cmd k m') :
    ReplicatesTo ld late [cmd] m m' :=
  .cons hcmd .nil

/-- The deletions of fields come first. -/
lemma ReplicatesTo.hdels (dels : List Bytes)
    (h : ReplicatesTo ld late cmds (m.without dels) m') :
    ReplicatesTo ld late (dels.map (fun f => .hdel [f]) ++ cmds) m m' := by
  induction dels generalizing m with
  | nil => rwa [without_nil] at h
  | cons f dels ih =>
    have hfirst : ∀ now k, late now → k.getD .empty = m →
        LeadsReplica ld now (.hdel [f]) k (m.without [f]) := by
      rintro now k - rfl
      exact hdel_replica ld [f]
    exact .cons hfirst (ih (by rwa [← without_append]))

end ReplicatesTo

/-! ### The effects on the map -/

/-- No field expires at time 0, which stands for no expiry time in a listpack. -/
def TtlMap.NoZero (m : TtlMap) : Prop := ∀ f, m.ttl f ≠ some 0

section Maps

variable {m m' : TtlMap} {t : ℕ}

section

variable (h : m.NoZero)
include h

lemma TtlMap.NoZero.mono (hm : ∀ f, m'.ttl f = some 0 → m.ttl f = some 0) :
    m'.NoZero := fun f hf => h f (hm f hf)

lemma TtlMap.NoZero.without (fs : List Bytes) : (m.without fs).NoZero :=
  h.mono fun _ hf => ttl_without hf

lemma TtlMap.NoZero.update (f v : Bytes) {e : Option ℕ} (he : e ≠ some 0) :
    TtlMap.NoZero (update m f (some (v, e))) := by
  intro g hg
  by_cases hgf : g = f
  · subst hgf
    rw [ttl, update_self] at hg
    exact he hg
  · rw [ttl, update_of_ne hgf] at hg
    exact h g hg

lemma TtlMap.NoZero.ttlSetAll (keepTtl : Bool) (fvs : List (Bytes × Bytes)) :
    (ttlSetAll keepTtl m fvs).NoZero := by
  refine foldlRecOn fvs _ h fun m' hm' fv _ => hm'.update fv.1 fv.2 ?_
  split_ifs
  · exact hm' fv.1
  · simp

lemma TtlMap.NoZero.ttlSetTime (ht : t ≠ 0) (fvs : List (Bytes × Bytes)) :
    (ttlSetTime t m fvs).NoZero :=
  foldlRecOn fvs _ h fun m' hm' fv _ => hm'.update fv.1 fv.2 (by simpa using ht)

lemma TtlMap.NoZero.ttlExpire (ht : t ≠ 0) (cond : ExpireSetCond) (f : Bytes) :
    (ttlExpire cond t m f).NoZero := by
  unfold RainCall.ttlExpire
  rcases m f with _ | ⟨v, prev⟩
  · exact h
  · by_cases hallow : cond.allows prev t = true
    · simpa [hallow] using h.update f v (by simpa using ht)
    · simpa [hallow] using h

lemma TtlMap.NoZero.ttlPersist (now : ℕ) (f : Bytes) :
    (ttlPersist now m f).NoZero := by
  unfold RainCall.ttlPersist
  rcases m f with _ | ⟨v, _ | e⟩
  · exact h
  · exact h
  · by_cases he : e < now
    · simpa [he] using h
    · simpa [he] using h.update f v (by simp)

end

/-- Changing a field and deleting others. -/
lemma TtlMap.without_update_some (m : TtlMap) (f : Bytes)
    (x : Option (Bytes × Option ℕ)) (ds : List Bytes) :
    without (update m f x) ds =
      if f ∈ ds then m.without ds else update (m.without ds) f x := by
  funext g
  by_cases hg : g = f
  · subst hg
    by_cases hmem : g ∈ ds <;> simp [without, hmem]
  · by_cases hmem : f ∈ ds <;> simp [without, hmem, hg]

lemma TtlMap.without_apply (m : TtlMap) (f : Bytes) (ds : List Bytes) :
    m.without ds f = if f ∈ ds then none else m f := rfl

lemma ttlExpire_without (cond : ExpireSetCond) (t : ℕ) (m : TtlMap) (f : Bytes)
    (ds : List Bytes) :
    ttlExpire cond t (m.without ds) f = (ttlExpire cond t m f).without ds := by
  unfold ttlExpire
  rw [without_apply]
  rcases m f with _ | ⟨v, prev⟩
  · rw [ite_self]
  · by_cases hallow : cond.allows prev t = true
    · by_cases hmem : f ∈ ds <;> simp [hmem, hallow, without_update_some]
    · by_cases hmem : f ∈ ds <;> simp [hmem, hallow]

lemma ttlPersist_without (now : ℕ) (m : TtlMap) (f : Bytes) (ds : List Bytes) :
    ttlPersist now (m.without ds) f = (ttlPersist now m f).without ds := by
  unfold ttlPersist
  rw [without_apply]
  rcases m f with _ | ⟨v, _ | e⟩
  · rw [ite_self]
  · by_cases hmem : f ∈ ds <;> simp [hmem]
  · by_cases he : e < now
    · by_cases hmem : f ∈ ds <;> simp [hmem, he]
    · by_cases hmem : f ∈ ds <;> simp [hmem, he, without_update_some]

/-- What `hashTypeSetEx` does on a master: what the replica will do, which gives `m'`, or it deletes
the field, or nothing. -/
def SetExOutcome (m m' : TtlMap) (f : Bytes) (Z : Prop) (r : TtlMap × SetExRes) : Prop :=
  (r.2 = .ok ∧ r.1 = m' ∧ Z) ∨ (r.2 = .deleted ∧ r.1 = update m f none) ∨
    (r.2 ≠ .ok ∧ r.2 ≠ .deleted ∧ r.1 = m ∧ m' = m)

lemma ttlSetEx_cases (isHT : Bool) (now : ℕ) (m : TtlMap) (cond : ExpireSetCond) (f : Bytes)
    (t : ℕ) :
    SetExOutcome m (ttlExpire cond t m f) f (t ≠ 0 ∨ m.ttl f = some 0)
      (ttlSetEx isHT ⟨now, true⟩ m cond f (some t)) := by
  cases hf : m f with
  | none => exact .inr (.inr (by simp [ttlSetEx, ttlExpire, hf]))
  | some x =>
    obtain ⟨v, prev⟩ := x
    rw [ttlSetEx_of_some hf]
    by_cases hallow : cond.allows prev t = true
    · by_cases hsame : (isHT && prev == some t) = true
      · -- The dict keeps a field that has this very time.
        obtain ⟨rfl, rfl⟩ : isHT = true ∧ prev = some t := by simpa using hsame
        have hself : update m f (some (v, some t)) = m := by
          rw [update_eq_self_iff, hf]
        refine .inl ⟨by simp [hallow], by simp [hallow, ttlExpire, hf], ?_⟩
        by_cases ht : t = 0
        · exact .inr (by simp [ttl, hf, ht])
        · exact .inl ht
      · by_cases hpast : t ≤ now
        · exact .inr (.inl (by simp [hallow, hsame, HashCtx.alreadyExpired, hpast]))
        · refine .inl ⟨?_, ?_, .inl (by omega)⟩
          · simp [hallow, hsame, HashCtx.alreadyExpired, hpast]
          · simp [hallow, hsame, HashCtx.alreadyExpired, hpast, ttlExpire, hf]
    · exact .inr (.inr (by simp [hallow, ttlExpire, hf]))

end Maps

end RainCall
