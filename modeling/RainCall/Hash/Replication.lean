import RainCall.Hash.Replica
import RainCall.Foundation.Run

/-!
# Replicas of a hash

A master executes `HSET`, `HSETEX`, `HGETEX`, `HGETDEL`, `HDEL`, `HPERSIST` and the `HEXPIRE` family
and propagates what is left of them after rewriting. A replica executes the propagated commands
later, each at a time of its own, and must end with the same fields, values and expiry times.

Two commands can break this. `HPERSIST` (and `HGETEX PERSIST`, which is propagated as `HPERSIST`)
ignores a field that has expired by the clock of the replica. And `HSETEX` with a time in the past
is not propagated if it deletes a field, although a dict keeps, and updates, the fields that have
this very time. Otherwise the replica follows the master (`replica_follows_master`).
-/

namespace RainCall

open Function HashProg Option Program TtlMap
open List hiding pure_def

/-! ### A master and its replica -/

/-- The commands in question. -/
def HashCommand.isReplicated : HashCommand → Bool
  | .hset _ => true
  | .hsetex .. => true
  | .hgetex .. => true
  | .hgetdel _ => true
  | .hdel _ => true
  | .hpersist _ => true
  | .hexpire .. => true
  | _ => false

/-- A command of a client of the master, with the times of the master and of the replica. -/
structure ReplicatedCall where
  cmd : HashCommand
  isReplicated : cmd.isReplicated = true
  now : ℕ
  cfg : HashConfig
  /-- The environments of the commands that are propagated. -/
  envs : List ReplicaEnv
  rest : ReplicaEnv
  /-- The replica is never ahead of the master. -/
  later : ∀ env ∈ rest :: envs, now ≤ env.1

/-- The master executes a command and the replica what is propagated. -/
def replicationStep (ld : LongDoubleText) (s : Option HashObj × Option HashObj)
    (c : ReplicatedCall) :
    Option (Option HashObj × Option HashObj) := do
  let r ← callHashCommand ld c.cfg ⟨c.now, true⟩ s.1 c.cmd
  let slot ← replicaApply ld c.rest c.envs s.2 r.2.2
  return (r.1, slot)

/-- The value and the expiry time of a field, whether it has expired or not. -/
def slotGet (slot : Option HashObj) (f : Bytes) : Option (Bytes × Option ℕ) :=
  match slot with
  | none => none
  | some o => (hashTypeGet o f).getD none

/-- The fields that the command makes persistent have not expired on the replica yet. -/
def PersistsInTime (c : ReplicatedCall) (ttl : Bytes → Option ℕ)
    (fields : List Bytes) : Prop :=
  ∀ f ∈ fields, ∀ e ∈ ttl f, c.now ≤ e → ∀ env ∈ c.rest :: c.envs, env.1 ≤ e

/-- The command is safe to replicate if the fields have these expiry times. -/
def ReplicatedCall.Safe (c : ReplicatedCall) (ttl : Bytes → Option ℕ) : Prop :=
  match c.cmd with
  | .hpersist fields => PersistsInTime c ttl fields
  | .hgetex .persist fields => PersistsInTime c ttl fields
  | .hsetex _ (.expire arg) fvs =>
    match parseExpireTime "hsetex" ⟨c.now, true⟩ arg with
    | .ok t => t ≤ c.now → ∀ fv ∈ fvs, ttl fv.1 ≠ some t
    | .error _ => True
  | _ => True

instance PersistsInTime.decidable (c : ReplicatedCall) (ttl : Bytes → Option ℕ)
    (fields : List Bytes) : Decidable (PersistsInTime c ttl fields) := by
  unfold PersistsInTime
  infer_instance

instance ReplicatedCall.Safe.decidable (c : ReplicatedCall) (ttl : Bytes → Option ℕ) :
    Decidable (c.Safe ttl) := by
  unfold ReplicatedCall.Safe
  split
  · infer_instance
  · infer_instance
  · split <;> infer_instance
  · infer_instance

/-! ### Commands on the master -/

section Master

variable {now : ℕ} {supports : Prop}

/-- The `HEXPIRE` family: the fields that were updated, after the deletions, give the same map. -/
lemma hexpireLoop_replicated (cond : ExpireSetCond) {t : ℕ} (hmax : t ≤ ebExpireTimeMax)
    (fields : List Bytes) (m : TtlMap) (hzero : m.NoZero) (hdels : List Bytes) :
    (hexpireLoop cond t fields).wp (hashSpec ⟨now, true⟩)
      (fun s rs => ∃ dels,
        s = ⟨some ((fieldsWith .ok rs).foldl (ttlExpire cond t) (m.without dels)), True,
          hdels ++ dels⟩ ∧ (fieldsWith .ok rs ≠ [] → t ≠ 0)) ⟨some m, True, hdels⟩ := by
  induction fields generalizing m hdels with
  | nil => exact ⟨[], by simp [fieldsWith], fun h => absurd rfl h⟩
  | cons f fields ih =>
    rw [hexpireLoop, wp_bind, wp_setEx]
    refine ⟨⟨.inl rfl, by simpa using hmax⟩, fun isHT => ?_⟩
    rw [wp_bind]
    rcases ttlSetEx_cases isHT now m cond f t with
      ⟨hres, hmap, ht⟩ | ⟨hres, hmap⟩ | ⟨hok, hdel, hmap, -⟩
    · have ht0 : t ≠ 0 := ht.resolve_right (hzero f)
      rw [hres, hmap]
      refine (ih _ (hzero.ttlExpire ht0 cond f) _).mono ?_
      rintro _ rs ⟨dels, rfl, -⟩
      refine ⟨dels, ?_, fun _ => ht0⟩
      simp [fieldsWith, ttlExpire_without]
    · rw [hres, hmap]
      have hzero' : TtlMap.NoZero (update m f none) :=
        hzero.mono fun g hg => ttl_update_none hg
      refine (ih _ hzero' _).mono ?_
      rintro _ rs ⟨dels, rfl, ht⟩
      refine ⟨f :: dels, ?_, by simpa [fieldsWith] using ht⟩
      simp [fieldsWith, without_update]
    · rw [if_neg hdel, hmap]
      refine (ih m hzero hdels).mono ?_
      rintro _ rs ⟨dels, rfl, ht⟩
      exact ⟨dels, by simp [fieldsWith, hok], by simpa [fieldsWith, hok] using ht⟩

/-- `HGETEX` without an option. -/
lemma hgetexLoop_keep (fields : List Bytes) (m : TtlMap) (hdels : List Bytes) :
    (hgetexLoop ⟨now, true⟩ none fields).wp (hashSpec ⟨now, true⟩)
      (fun s r => ∃ dels, s = ⟨some (m.without dels), supports, hdels ++ dels⟩ ∧ r.2.2 = [])
      ⟨some m, supports, hdels⟩ := by
  induction fields generalizing m hdels with
  | nil => exact ⟨[], by simp, rfl⟩
  | cons f fields ih =>
    have hupdate : ∀ r, hgetexUpdate none f r = pure [] := by
      intro r
      cases r <;> rfl
    simp only [hgetexLoop, wp_bind, wp_hashTypeGetValue, hupdate,
      true_or, true_implies, Bool.true_eq_false, false_implies, and_true]
    constructor
    · intro _
      refine (ih m hdels).mono ?_
      rintro _ r ⟨dels, rfl, hr⟩
      exact ⟨dels, rfl, by simp [hr]⟩
    · intro _
      refine (ih _ _).mono ?_
      rintro _ r ⟨dels, rfl, hr⟩
      exact ⟨f :: dels, by simp [without_update], by simp [hr]⟩

variable {E : TtlMap → Bytes → TtlMap} {m : TtlMap} {k : Option TtlMap}
  {fields dels : List Bytes} {cond : FieldCond} {ttl : SetexTtl} {expireTime : Option ℕ}
  {fvs : List (Bytes × Bytes)}

/-- `HGETEX` with an option: the effect `E` of the propagated command on all fields, after the
deletions, gives the same map. -/
lemma hgetexLoop_replicated {x : Option ℕ} {H : TtlMap → Prop} {Z : Prop} {F : List Bytes}
    (hmax : ∀ t ∈ x, t ≤ ebExpireTimeMax) (hnone : ∀ m f, m f = none → E m f = m)
    (hwithout : ∀ m f ds, E (m.without ds) f = (E m f).without ds)
    (hdel : ∀ m f, H m → H (update m f none)) (hE : ∀ m f, H m → Z → H (E m f))
    (hstep : ∀ m f isHT, H m → f ∈ F → m.live ⟨now, true⟩ f ≠ none →
      SetExOutcome m (E m f) f Z (ttlSetEx isHT ⟨now, true⟩ m .always f x))
    (fields : List Bytes) (hF : ∀ f ∈ fields, f ∈ F) (m : TtlMap) (hH : H m)
    (hdels : List Bytes) :
    (hgetexLoop ⟨now, true⟩ (some x) fields).wp (hashSpec ⟨now, true⟩)
      (fun s r => ∃ dels,
        s = ⟨some (fields.foldl E (m.without dels)), True, hdels ++ dels⟩ ∧
        (.ok ∉ r.2.2 → fields.foldl E (m.without dels) = m.without dels) ∧ (.ok ∈ r.2.2 → Z))
      ⟨some m, True, hdels⟩ := by
  induction fields generalizing m hdels with
  | nil => exact ⟨[], by simp, fun _ => rfl, fun h => absurd h not_mem_nil⟩
  | cons f fields ih =>
    have hF' : ∀ g ∈ fields, g ∈ F := fun g hg => hF g (mem_cons_of_mem f hg)
    -- A field that is deleted is not found by the replica.
    have hgone : ∀ dels, E (m.without (f :: dels)) f = m.without (f :: dels) :=
      fun dels => hnone _ f (by simp [without])
    rw [hgetexLoop, wp_bind, wp_hashTypeGetValue]
    refine ⟨fun hexp => ?_, fun hexp => ⟨fun _ => ?_, fun h => Bool.noConfusion h⟩⟩
    · cases hlive : m.live ⟨now, true⟩ f with
      | none =>
        have hf : m f = none := by simpa [live, hexp] using hlive
        simp only [GetFieldRes.ofValue, hgetexUpdate, wp_bind]
        refine (ih hF' m hH hdels).mono ?_
        rintro _ r ⟨dels, rfl, hnot, hz⟩
        have hE0 : E (m.without dels) f = m.without dels :=
          hnone _ f (by simp [without, hf])
        exact ⟨dels, by simp [hE0], by simpa [hE0] using hnot, by simpa using hz⟩
      | some v =>
        simp only [GetFieldRes.ofValue, hgetexUpdate, wp_bind, wp_setEx]
        refine ⟨⟨.inl trivial, hmax⟩, fun isHT => ?_⟩
        rcases hstep m f isHT hH (hF f mem_cons_self) (by simp [hlive]) with
          ⟨hres, hmap, hz⟩ | ⟨hres, hmap⟩ | ⟨hok, hdeleted, hmap, hsame⟩
        · rw [hres, hmap]
          refine (ih hF' _ (hE m f hH hz) _).mono ?_
          rintro _ r ⟨dels, rfl, -, -⟩
          refine ⟨dels, by simp [hwithout], fun h => absurd (by simp) h, fun _ => hz⟩
        · rw [hres, hmap]
          refine (ih hF' _ (hdel m f hH) _).mono ?_
          rintro _ r ⟨dels, rfl, hnot, hz⟩
          rw [without_update] at hnot ⊢
          exact ⟨f :: dels, by simp [hgone], by simpa [hgone] using hnot, by simpa using hz⟩
        · rw [if_neg hdeleted, hmap]
          refine (ih hF' m hH hdels).mono ?_
          rintro _ r ⟨dels, rfl, hnot, hz⟩
          have hE0 : E (m.without dels) f = m.without dels := by rw [hwithout, hsame]
          exact ⟨dels, by simp [hE0], by simpa [hE0, Ne.symm hok] using hnot,
            by simpa [Ne.symm hok] using hz⟩
    · simp only [hgetexUpdate, wp_bind]
      refine (ih hF' _ (hdel m f hH) _).mono ?_
      rintro _ r ⟨dels, rfl, hnot, hz⟩
      rw [without_update] at hnot ⊢
      exact ⟨f :: dels, by simp [hgone], by simpa [hgone] using hnot, by simpa using hz⟩

/-- `HSETEX` with a time in the past deletes its fields, unless one of them has this very time. -/
lemma wp_hsetexLoop_past {t : ℕ} (hpast : t ≤ now) (hmax : t ≤ ebExpireTimeMax)
    (fvs : List (Bytes × Bytes)) (m : TtlMap) (h : ∀ fv ∈ fvs, m.ttl fv.1 ≠ some t)
    (hdels : List Bytes) :
    (hsetexLoop true (some t) fvs).wp (hashSpec ⟨now, true⟩)
      (fun s n => s = ⟨some (m.without (fvs.map Prod.fst)), True, hdels ++ fvs.map Prod.fst⟩ ∧
        n = fvs.length) ⟨some m, True, hdels⟩ := by
  induction fvs generalizing m hdels with
  | nil => exact ⟨by simp, rfl⟩
  | cons fv fvs ih =>
    obtain ⟨f, v⟩ := fv
    rw [hsetexLoop, wp_bind, wp_setField, wp_bind, wp_setEx]
    refine ⟨⟨.inl rfl, by simpa using hmax⟩, fun isHT => ?_⟩
    have hstep : ttlSetEx isHT ⟨now, true⟩ (ttlSet m f v true) .always f (some t) =
        (update m f none, .deleted) := by
      have hf : ttlSet m f v true f = some (v, m.ttl f) := update_self ..
      have hne : ¬ (isHT && m.ttl f == some t) = true := by
        simp [h (f, v) mem_cons_self]
      have hallow : (!ExpireSetCond.always.allows (m.ttl f) t) = false := by
        cases m.ttl f <;> rfl
      rw [ttlSetEx_of_some hf, hallow, if_neg Bool.false_ne_true, if_neg hne, if_pos]
      · rw [ttlSet, update_idem]
      · simp [HashCtx.alreadyExpired, hpast]
    rw [hstep, wp_bind]
    refine (ih _ (fun gv hgv httl => ?_) _).mono ?_
    · exact h gv (mem_cons_of_mem _ hgv) (ttl_update_none httl)
    · rintro _ _ ⟨rfl, rfl⟩
      simp [without_update]

/-- The replica will follow what a command has done on the master. -/
def Followed (ld : LongDoubleText) (late : ℕ → Prop) (m : TtlMap) (s : KeySpec)
    (r : CommandResult) : Prop :=
  ReplicatesTo ld late (s.hdels.map (fun f => .hdel [f]) ++ r.propagated) m (s.map.getD .empty) ∧
    (s.map.getD .empty).NoZero

variable {ld : LongDoubleText} {late : ℕ → Prop}

/-- Fields were deleted and nothing else was propagated. -/
lemma Followed.of_without (hzero : m.NoZero) {s : KeySpec} {r : CommandResult}
    (hmap : s.map.getD .empty = m.without s.hdels) (hr : r.propagated = []) :
    Followed ld late m s r := by
  rw [Followed, hmap, hr]
  exact ⟨.hdels _ .nil, hzero.without _⟩

/-- Nothing was changed. -/
lemma Followed.unchanged (hzero : (k.getD .empty).NoZero) (reply : HashReply) :
    Followed ld late (k.getD .empty) ⟨k, False, []⟩ (.unchanged reply) :=
  .of_without hzero (by simp) rfl

/-- A command was propagated whose effect on the replica is known. -/
lemma Followed.of_command {m' : TtlMap} (hzero : m'.NoZero) {s : KeySpec} {reply : HashReply}
    {dirty : ℕ} {prevented : Bool} {cmd : HashCommand} (hmap : s.map.getD .empty = m')
    (hdirty : dirty = 0 ∨ prevented = true → m' = m.without s.hdels)
    (hcmd : ¬ (dirty = 0 ∨ prevented = true) → ∀ now k, late now → k.getD .empty = m.without
      s.hdels → LeadsReplica ld now cmd k m') :
    Followed ld late m s ⟨reply, dirty, prevented, some cmd⟩ := by
  subst hmap
  refine ⟨.hdels _ ?_, hzero⟩
  by_cases h : dirty = 0 ∨ prevented = true
  · rw [CommandResult.propagated, if_pos h, ← hdirty h]
    exact .nil
  · rw [CommandResult.propagated, if_neg h]
    exact .single (hcmd h)

lemma hset_followed (hzero : (k.getD .empty).NoZero) (fvs : List (Bytes × Bytes)) :
    (hsetCommand fvs).wp (hashSpec ⟨now, true⟩) (Followed ld late (k.getD .empty))
      ⟨k, False, []⟩ := by
  obtain ⟨n, hn⟩ := @hsetLoop_spec ⟨now, true⟩ False [] fvs (k.getD .empty)
  simp only [hsetCommand, wp_bind, wp_hashTypeLookupWriteOrCreate, wp_tryConversion]
  refine hn.of_eq ?_
  refine .of_command (hzero.ttlSetAll false fvs) rfl ?_ ?_
  · rintro (h | h)
    · obtain rfl : fvs = [] := length_eq_zero_iff.mp h
      simp [ttlSetAll]
    · cases h
  · rintro - now' k' - hk'
    rw [← (hk'.trans (without_nil _) : k'.getD .empty = k.getD .empty)]
    exact hset_replica ld fvs

lemma hdel_followed (hzero : (k.getD .empty).NoZero) (fields : List Bytes) :
    (hdelCommand fields).wp (hashSpec ⟨now, true⟩) (Followed ld late (k.getD .empty))
      ⟨k, False, []⟩ := by
  cases k with
  | none => simpa [hdelCommand] using Followed.unchanged hzero _
  | some m =>
    rw [getD_some] at hzero ⊢
    obtain ⟨n, b, hwp, hb, hn⟩ := @hdelLoop_spec ⟨now, true⟩ False [] fields m
    simp only [hdelCommand, wp_bind, wp_lookupKey, isSome_some, if_true]
    refine hwp.of_eq ?_
    have hfollow : ∀ k', k'.getD .empty = m.without fields →
        Followed ld late m ⟨k', False, []⟩ ⟨.int n, n, false, some (.hdel fields)⟩ := by
      intro k' hk'
      refine .of_command (TtlMap.NoZero.without hzero fields) hk' ?_ ?_
      · rintro (h | h)
        · rw [hn h, without_nil]
        · cases h
      · rintro - now' k'' - hk''
        rw [without_nil] at hk''
        rw [← hk'']
        exact hdel_replica ld fields
    cases b with
    | true => simpa [wp_when] using hfollow none (hb rfl).symm
    | false => simpa [wp_when] using hfollow (some (m.without fields)) rfl

lemma hgetdel_followed (hzero : (k.getD .empty).NoZero) (fields : List Bytes) :
    (hgetdelCommand ⟨now, true⟩ fields).wp (hashSpec ⟨now, true⟩)
      (Followed ld late (k.getD .empty)) ⟨k, False, []⟩ := by
  cases k with
  | none => simpa [hgetdelCommand] using Followed.unchanged hzero _
  | some m =>
    rw [getD_some] at hzero ⊢
    obtain ⟨vs, expired, deleted, dels, hwp, hsub, hdel⟩ :=
      @hgetdelLoop_spec ⟨now, true⟩ False fields m []
    simp only [hgetdelCommand, wp_bind, wp_lookupKey, isSome_some, if_true]
    refine hwp.of_eq ?_
    split_ifs with h
    · exact .of_without hzero (by simpa using hdel h.2) rfl
    · rw [wp_bind, wp_deleteIfEmpty]
      refine .of_command (TtlMap.NoZero.without hzero fields) (getD_orDeleted _) ?_ ?_
      · rintro (h | h)
        · simpa using hdel h
        · cases h
      · rintro - now' k' - hk'
        have hall : (m.without dels).without fields = m.without fields := by
          funext f
          by_cases hf : f ∈ fields
          · simp [without, hf]
          · have hdels : f ∉ dels := fun hmem => hf (hsub hmem)
            simp [without, hdels]
        rw [← hall, ← (show k'.getD .empty = m.without dels by simpa using hk')]
        exact hdel_replica ld fields

/-- `HPERSIST` that has persisted nothing has changed nothing. -/
lemma foldl_ttlPersist_of_not_mem (now : ℕ) (fields : List Bytes) (m : TtlMap)
    (h : 1 ∉ persistReplies now m fields) : fields.foldl (ttlPersist now) m = m := by
  induction fields generalizing m with
  | nil => rfl
  | cons f fields ih =>
    rw [persistReplies, mem_cons, not_or] at h
    have hstep : ttlPersist now m f = m := by
      have hreply := h.1
      unfold ttlPersist
      unfold persistReply at hreply
      rcases hf : m f with _ | ⟨v, _ | e⟩
      · rfl
      · rfl
      · by_cases he : e < now
        · simp [he]
        · simp [hf, he] at hreply
    rw [foldl_cons, hstep]
    exact ih m (by simpa [hstep] using h.2)

lemma ttl_ttlPersist {now e : ℕ} {f g : Bytes} (h : (ttlPersist now m f).ttl g = some e) :
    m.ttl g = some e := by
  unfold ttlPersist at h
  rcases hf : m f with _ | ⟨v, _ | e'⟩
  · rwa [hf] at h
  · rwa [hf] at h
  · rw [hf] at h
    by_cases he : e' < now
    · simpa [he] using h
    · by_cases hg : g = f
      · subst hg
        simp [he, ttl] at h
      · simpa [he, ttl, hg] using h

/-- `HPERSIST` at two times, with no expiry time of its fields between them. -/
lemma foldl_ttlPersist_congr {now' : ℕ} (hle : now ≤ now') (fields : List Bytes) (m : TtlMap)
    (h : ∀ f ∈ fields, ∀ e, m.ttl f = some e → now ≤ e → now' ≤ e) :
    fields.foldl (ttlPersist now') m = fields.foldl (ttlPersist now) m := by
  induction fields generalizing m with
  | nil => rfl
  | cons f fields ih =>
    have hstep : ttlPersist now' m f = ttlPersist now m f := by
      unfold ttlPersist
      rcases hf : m f with _ | ⟨v, _ | e⟩
      · rfl
      · rfl
      · have hiff : e < now' ↔ e < now := by
          have hin := h f mem_cons_self e (by simp [ttl, hf])
          omega
        simp [hiff]
    rw [foldl_cons, hstep]
    exact ih _ fun g hg e he => h g (mem_cons_of_mem f hg) e (ttl_ttlPersist he)

lemma TtlMap.NoZero.foldl_ttlPersist (h : m.NoZero) (fields : List Bytes) :
    (fields.foldl (RainCall.ttlPersist now) m).NoZero :=
  foldlRecOn fields _ h fun _ hm f _ => hm.ttlPersist now f

lemma TtlMap.NoZero.foldl_ttlExpire (h : m.NoZero) {t : ℕ} (ht : t ≠ 0) (cond : ExpireSetCond)
    (fields : List Bytes) :
    (fields.foldl (RainCall.ttlExpire cond t) m).NoZero :=
  foldlRecOn fields _ h fun _ hm f _ => hm.ttlExpire ht cond f

lemma hpersist_followed (hzero : (k.getD .empty).NoZero)
    (hlate : ∀ now', late now' → now ≤ now' ∧ ∀ f ∈ fields, ∀ e, (k.getD .empty).ttl f = some e →
      now ≤ e → now' ≤ e) :
    (hpersistCommand ⟨now, true⟩ fields).wp (hashSpec ⟨now, true⟩)
      (Followed ld late (k.getD .empty)) ⟨k, False, []⟩ := by
  cases k with
  | none => simpa [hpersistCommand] using Followed.unchanged hzero _
  | some m =>
    simp only [getD_some] at hzero hlate ⊢
    simp only [hpersistCommand, wp_bind, wp_lookupKey, isSome_some, if_true,
      wp_encoding]
    intro enc henc
    split_ifs with hlp
    · rw [wp_bind, wp_noTtlLoop]
      exact @Followed.unchanged (some m) ld late hzero _
    · rw [wp_bind, wp_hpersistLoop]
      refine .of_command (TtlMap.NoZero.foldl_ttlPersist hzero fields) rfl ?_ ?_
      · rintro (h | h)
        · exact foldl_ttlPersist_of_not_mem now fields m (by simpa using h)
        · cases h
      · rintro - now' k' hnow' hk'
        obtain ⟨hle, hin⟩ := hlate now' hnow'
        rw [without_nil] at hk'
        rw [← foldl_ttlPersist_congr hle fields m hin, ← hk']
        exact hpersist_replica ld fields

lemma hexpire_followed (hzero : (k.getD .empty).NoZero) (arg : ExpireArg) (cond : ExpireSetCond)
    (fields : List Bytes) :
    (hexpireGenericCommand ⟨now, true⟩ arg cond fields).wp (hashSpec ⟨now, true⟩)
      (Followed ld late (k.getD .empty)) ⟨k, False, []⟩ := by
  unfold hexpireGenericCommand
  cases hparse : parseExpireTime arg.commandName ⟨now, true⟩ arg with
  | error msg => exact Followed.unchanged hzero _
  | ok t =>
    cases k with
    | none => simpa using Followed.unchanged hzero _
    | some m =>
      simp only [wp_bind, wp_lookupKey, isSome_some, if_true, wp_setExInit]
      refine (hexpireLoop_replicated cond (parseExpireTime_le_max hparse) fields m hzero []).mono ?_
      rintro _ rs ⟨dels, rfl, ht⟩
      rw [wp_deleteIfEmpty]
      have hzero' : ((fieldsWith .ok rs).foldl (ttlExpire cond t) (m.without dels)).NoZero := by
        by_cases hupdated : fieldsWith .ok rs = []
        · simpa [hupdated] using hzero.without dels
        · exact (hzero.without dels).foldl_ttlExpire (ht hupdated) cond _
      refine .of_command hzero' (getD_orDeleted _) ?_ ?_
      · intro h
        have hupdated : fieldsWith .ok rs = [] := by
          rcases h with h | h
          · exact length_eq_zero_iff.mp (Nat.eq_zero_of_add_eq_zero_left h)
          · simpa using h
        simp [hupdated]
      · rintro h now' k' - hk'
        have hupdated : fieldsWith .ok rs ≠ [] := by simpa using (not_or.mp h).2
        rw [← (show k'.getD .empty = m.without dels by simpa using hk')]
        exact hexpire_replica ld (fun _ _ => parseExpireTime_pxat hparse) (ht hupdated) cond _

/-- `HGETEX` behind its loop. -/
lemma hgetex_tail_followed (hzero : m.NoZero) {supports : Prop}
    (hE : (fields.foldl E (m.without dels)).NoZero)
    {r : List (Option Bytes) × ℕ × List SetExRes} {cmd : HashCommand}
    (hnot : .ok ∉ r.2.2 → fields.foldl E (m.without dels) = m.without dels)
    (hcmd : .ok ∈ r.2.2 → ∀ now' k, late now' → k.getD .empty = m.without dels →
      LeadsReplica ld now' cmd k (fields.foldl E (m.without dels))) :
    (if r.2.1 = 0 ∧ r.2.2.count .deleted = 0 ∧ r.2.2.count .ok = 0 then
        pure (.unchanged (.bulks r.1))
      else do
        deleteIfEmpty
        pure ⟨.bulks r.1, r.2.2.count .deleted + r.2.2.count .ok, r.2.2.count .ok = 0,
          some cmd⟩ : HashProg CommandResult).wp (hashSpec ⟨now, true⟩) (Followed ld late m)
      ⟨some (fields.foldl E (m.without dels)), supports, dels⟩ := by
  have hcount : r.2.2.count .ok = 0 ↔ SetExRes.ok ∉ r.2.2 := count_eq_zero
  split_ifs with h
  · exact .of_without hzero (hnot (hcount.mp h.2.2)) rfl
  · rw [wp_bind, wp_deleteIfEmpty]
    refine .of_command hE (getD_orDeleted _) ?_ ?_
    · intro hquiet
      refine hnot (hcount.mp ?_)
      rcases hquiet with hquiet | hquiet
      · exact Nat.eq_zero_of_add_eq_zero_left hquiet
      · simpa using hquiet
    · intro hloud
      have hok : r.2.2.count .ok ≠ 0 := by simpa using (not_or.mp hloud).2
      exact hcmd (by simpa [hcount] using hok)

lemma hgetex_followed (hzero : (k.getD .empty).NoZero) (ttl : GetexTtl)
    (hlate : ttl = .persist → ∀ now', late now' → now ≤ now' ∧ ∀ f ∈ fields, ∀ e, (k.getD
      .empty).ttl f = some e → now ≤ e → now' ≤ e) :
    (hgetexCommand ⟨now, true⟩ ttl fields).wp (hashSpec ⟨now, true⟩)
      (Followed ld late (k.getD .empty)) ⟨k, False, []⟩ := by
  unfold hgetexCommand
  cases htime : hgetexTime ⟨now, true⟩ ttl with
  | error msg => exact Followed.unchanged hzero _
  | ok expireAt =>
    cases k with
    | none => simpa using Followed.unchanged hzero _
    | some m =>
      simp only [getD_some] at hzero hlate ⊢
      simp only [wp_bind, wp_lookupKey, isSome_some, if_true]
      cases ttl with
      | keep =>
        obtain rfl : none = expireAt := Except.ok.inj htime
        refine (hgetexLoop_keep fields m []).mono ?_
        rintro _ r ⟨dels, rfl, hr⟩
        have hfold : fields.foldl (fun m _ => m) (m.without dels) = m.without dels :=
          foldl_fixed' (fun _ => rfl) fields
        have htail := @hgetex_tail_followed now (fun m _ => m) m fields dels ld late hzero False
          (by rw [hfold]; exact hzero.without dels) r (.hpersist fields) (fun _ => hfold)
          (fun h => by rw [hr] at h; cases h)
        rw [hfold] at htail
        exact htail
      | persist =>
        obtain rfl : some none = expireAt := Except.ok.inj htime
        simp only [wp_when, isSome_some, true_implies, not_true_eq_false,
          false_implies, and_true, wp_setExInit]
        refine (@hgetexLoop_replicated now (ttlPersist now) none (fun _ => True) True fields
          (by simp) ?_ (fun m f ds => ttlPersist_without now m f ds) (fun _ _ _ => trivial)
          (fun _ _ _ _ => trivial) ?_ fields (fun _ hf => hf) m trivial []).mono ?_
        · intro m f hf
          simp [ttlPersist, hf]
        · intro m f isHT _ _ hlive
          rcases hf : m f with _ | ⟨v, _ | e⟩
          · exact absurd (by simp [live, hf]) hlive
          · exact .inr (.inr (by simp [ttlSetEx, ttlPersist, hf]))
          · have he : ¬ e < now := by
              intro he
              exact hlive (by simp [live, ttl, hf, HashCtx.isExpired, he])
            exact .inl (by simp [ttlSetEx, ttlPersist, hf, he])
        · rintro _ r ⟨dels, rfl, hnot, -⟩
          refine hgetex_tail_followed hzero ((hzero.without dels).foldl_ttlPersist fields) hnot ?_
          rintro - now' k' hnow' hk'
          obtain ⟨hle, hin⟩ := hlate rfl now' hnow'
          rw [← foldl_ttlPersist_congr hle fields (m.without dels)
            (fun f hf e he => hin f hf e (ttl_without he)), ← hk']
          exact hpersist_replica ld fields
      | expire arg =>
        cases hparse : parseExpireTime "hgetex" ⟨now, true⟩ arg with
        | error msg =>
          rw [hgetexTime, hparse] at htime
          cases htime
        | ok t =>
          rw [hgetexTime, hparse] at htime
          obtain rfl : some (some t) = expireAt := Except.ok.inj htime
          simp only [wp_when, isSome_some, true_implies, not_true_eq_false,
            false_implies, and_true, wp_setExInit]
          refine (@hgetexLoop_replicated now (ttlExpire .always t) (some t) TtlMap.NoZero (t ≠ 0)
            fields (by simpa using parseExpireTime_le_max hparse) ?_
              (fun m f ds => ttlExpire_without .always t m f ds)
            (fun m f hm => hm.mono fun g hg => ttl_update_none hg)
            (fun m f hm ht => hm.ttlExpire ht .always f) ?_ fields (fun _ hf => hf) m hzero []).mono
              ?_
          · intro m f hf
            simp [ttlExpire, hf]
          · intro m f isHT hm _ _
            refine (ttlSetEx_cases isHT now m .always f t).imp_left ?_
            rintro ⟨hres, hmap, ht⟩
            exact ⟨hres, hmap, ht.resolve_right (hm f)⟩
          · rintro _ r ⟨dels, rfl, hnot, ht⟩
            have hE : (fields.foldl (ttlExpire .always t) (m.without dels)).NoZero := by
              by_cases hok : SetExRes.ok ∈ r.2.2
              · exact (hzero.without dels).foldl_ttlExpire (ht hok) .always fields
              · rw [hnot hok]
                exact hzero.without dels
            refine hgetex_tail_followed hzero hE hnot ?_
            rintro hok now' k' - hk'
            rw [← hk']
            exact hexpire_replica ld (fun _ _ => parseExpireTime_pxat hparse) (ht hok)
              .always fields

section

variable (hzero : m.NoZero)
  (hparse : ∀ now', hsetexTime ⟨now', false⟩ (ttl.propagated expireTime) = .ok expireTime)
  (hkeep : expireTime.isSome = true → ttl ≠ .discard)
  (hpast : ∀ t, expireTime = some t → t ≤ now → ∀ fv ∈ fvs, m.ttl fv.1 ≠ some t)
include hzero hparse hkeep hpast

lemma hsetexApply_followed (hmet : cond.Met (m.without dels) (fvs.map Prod.fst)) :
    (hsetexApply cond ttl expireTime fvs).wp (hashSpec ⟨now, true⟩) (Followed ld late m)
      ⟨some (m.without dels), False, dels⟩ := by
  by_cases hfuture : ∀ t, expireTime = some t → now < t
  · have htime : ∀ t, expireTime = some t →
        HashCtx.alreadyExpired ⟨now, true⟩ t = false ∧ t ≠ 0 ∧ ttl ≠ .discard := by
      rintro t rfl
      have hlt := hfuture t rfl
      refine ⟨by simp [HashCtx.alreadyExpired, hlt], by omega, hkeep rfl⟩
    have hsame : setexMap (ttl.propagated expireTime) expireTime = setexMap ttl expireTime := by
      cases expireTime <;> rfl
    refine (hsetexApply_effect htime (hsetexTime_le_max (hparse 0)) fvs (m.without dels)).mono ?_
    rintro s _ ⟨hmap, hdels, rfl⟩
    have hzero' : (setexMap ttl expireTime (m.without dels) fvs).NoZero := by
      cases expireTime with
      | none => exact (hzero.without dels).ttlSetAll _ fvs
      | some t => exact (hzero.without dels).ttlSetTime (htime t rfl).2.1 fvs
    refine .of_command hzero' hmap ?_ ?_
    · rintro (h | h)
      · obtain rfl : fvs = [] := length_eq_zero_iff.mp h
        cases expireTime <;> rw [hdels] <;> rfl
      · cases h
    · rintro - now' k' - hk'
      rw [hdels] at hk'
      rw [← hk', ← hsame]
      exact hsetex_replica ld (hparse now') (fun t ht => (htime t ht).2.1) (by rwa [hk'])
  · -- The time has passed, and all fields are deleted.
    push Not at hfuture
    obtain ⟨t, rfl, hle⟩ := hfuture
    rw [wp_hsetexApply_some (hkeep rfl)]
    refine (wp_hsetexLoop_past hle (hsetexTime_le_max (hparse 0) t rfl) fvs (m.without dels)
      (fun fv hfv httl => hpast t rfl hle fv hfv (ttl_without httl)) dels).of_eq ?_
    rw [wp_deleteIfEmpty]
    refine .of_without hzero ?_ ?_
    · rw [getD_orDeleted, without_append]
    · rw [CommandResult.propagated, if_pos]
      rcases fvs.length.eq_zero_or_pos with h | h
      · exact .inl h
      · exact .inr (by simpa using h)

lemma hsetexChecked_followed :
    (hsetexChecked ⟨now, true⟩ cond ttl expireTime fvs).wp (hashSpec ⟨now, true⟩)
      (Followed ld late m) ⟨some m, False, []⟩ := by
  unfold hsetexChecked
  split_ifs with hany
  · subst hany
    have happly := @hsetexApply_followed now m [] .any ttl expireTime fvs ld late hzero hparse hkeep
      hpast trivial
    rwa [without_nil] at happly
  obtain ⟨found, expired, dels, hwp, hdels, hfnx, hfxx⟩ :=
    @hsetexCheck_spec ⟨now, true⟩ False cond (fvs.map Prod.fst) m []
  rw [wp_bind]
  refine hwp.of_eq ?_
  split_ifs with hfail
  · by_cases hexpired : expired ≠ 0
    · simp only [wp_bind, wp_when, hexpired, true_implies, not_true_eq_false,
        false_implies, and_true, wp_deleteIfEmpty, ne_eq, not_false_eq_true]
      exact .of_without hzero (by simp) rfl
    · simp only [hexpired]
      exact .of_without hzero rfl rfl
  · refine hsetexApply_followed hzero hparse hkeep hpast ?_
    push Not at hfail
    cases cond with
    | any => exact absurd rfl hany
    | fnx => exact (hfnx rfl).2 (hfail.1 rfl)
    | fxx =>
      -- All fields are live, so none of them was deleted.
      have hlive := (hfxx rfl).mp ((hfail.2 rfl).trans (length_map Prod.fst).symm)
      intro f hf hnone
      refine hlive f hf ?_
      by_cases hmem : f ∈ dels
      · simp [live, hdels f hmem]
      · have hf' : m f = none := by simpa [without, hmem] using hnone
        simp [live, hf']

end

lemma hsetex_followed (hzero : (k.getD .empty).NoZero)
    (hpast : ∀ t, hsetexTime ⟨now, true⟩ ttl = .ok (some t) → t ≤ now → ∀ fv ∈ fvs, (k.getD
      .empty).ttl fv.1 ≠ some t) :
    (hsetexCommand ⟨now, true⟩ cond ttl fvs).wp (hashSpec ⟨now, true⟩)
      (Followed ld late (k.getD .empty)) ⟨k, False, []⟩ := by
  unfold hsetexCommand
  cases htime : hsetexTime ⟨now, true⟩ ttl with
  | error msg => exact Followed.unchanged hzero _
  | ok expireTime =>
    obtain ⟨hkeep, hparse⟩ : (expireTime.isSome = true → ttl ≠ .discard) ∧ ∀ now',
        hsetexTime ⟨now', false⟩ (ttl.propagated expireTime) = .ok expireTime := by
      rcases hsetexTime_cases htime with ⟨rfl, rfl | rfl⟩ | ⟨arg, t, rfl, rfl, hparse⟩
      · exact ⟨by simp, fun _ => rfl⟩
      · exact ⟨by simp, fun _ => rfl⟩
      · refine ⟨by simp, fun now' => ?_⟩
        rw [SetexTtl.propagated, hsetexTime, parseExpireTime_pxat hparse]
        rfl
    have hpast' : ∀ t, expireTime = some t → t ≤ now →
        ∀ fv ∈ fvs, (k.getD .empty).ttl fv.1 ≠ some t := by
      rintro t rfl
      exact hpast t htime
    cases k with
    | none =>
      by_cases hcond : cond = .fxx
      · simpa [hcond] using @Followed.unchanged none ld late hzero (.int 0)
      · simpa [hcond, wp_when] using hsetexChecked_followed hzero hparse hkeep hpast'
    | some m =>
      simpa [wp_when] using hsetexChecked_followed hzero hparse hkeep hpast'

end Master

/-! ### Histories -/

lemma hashCommand_followed (ld : LongDoubleText) (c : ReplicatedCall) {k : Option TtlMap}
    (hzero : (k.getD .empty).NoZero) (hsafe : c.Safe (k.getD .empty).ttl) :
    (hashCommand ld ⟨c.now, true⟩ c.cmd).wp (hashSpec ⟨c.now, true⟩)
      (Followed ld (fun now' => ∃ env ∈ c.rest :: c.envs, env.1 = now') (k.getD .empty))
      ⟨k, False, []⟩ := by
  obtain ⟨cmd, hcmd, now, cfg, envs, rest, later⟩ := c
  have hlate : ∀ fields, PersistsInTime ⟨cmd, hcmd, now, cfg, envs, rest, later⟩
      (k.getD .empty).ttl fields → ∀ now', (∃ env ∈ rest :: envs, env.1 = now') → now ≤ now' ∧
        ∀ f ∈ fields, ∀ e, (k.getD .empty).ttl f = some e → now ≤ e → now' ≤ e := by
    rintro fields h _ ⟨env, henv, rfl⟩
    exact ⟨later env henv, fun f hf e he hle => h f hf e he hle env henv⟩
  cases cmd with
  | hset fvs => exact hset_followed hzero fvs
  | hsetex cond ttl fvs =>
    refine hsetex_followed hzero fun t htime => ?_
    rcases hsetexTime_cases htime with ⟨⟨⟩, -⟩ | ⟨arg, _, rfl, ⟨⟩, hparse⟩
    simpa [ReplicatedCall.Safe, hparse] using hsafe
  | hgetex ttl fields =>
    refine hgetex_followed hzero ttl fun hpersist => hlate fields ?_
    subst hpersist
    exact hsafe
  | hgetdel fields => exact hgetdel_followed hzero fields
  | hdel fields => exact hdel_followed hzero fields
  | hpersist fields => exact hpersist_followed hzero (hlate fields hsafe)
  | hexpire arg cond fields => exact hexpire_followed hzero arg cond fields
  | hsetnx _ _ | hincrby _ _ | hincrbyfloat _ _ | hget _ | hmget _ | hexists _ | hstrlen _
  | httl _ _ _ => cases hcmd

/-- The master and the replica hold the same fields. -/
def InSync (s : Option HashObj × Option HashObj) : Prop :=
  ∃ m : TtlMap, SlotFields s.1 m ∧ SlotFields s.2 m ∧ m.NoZero

lemma SlotFields.slotGet {slot : Option HashObj} {m : TtlMap} (h : SlotFields slot m)
    (f : Bytes) : slotGet slot f = m f := by
  obtain ⟨k, hk, rfl⟩ := h
  rcases hk with ⟨rfl, rfl⟩ | ⟨o, m, rfl, rfl, ho⟩
  · rfl
  · rw [RainCall.slotGet, ho.hashTypeGet]
    rfl

lemma replicationStep_inSync (ld : LongDoubleText) (s : Option HashObj × Option HashObj)
    (c : ReplicatedCall) (hsafe : c.Safe (slotTtl s.1)) (h : InSync s) :
    ∃ s', replicationStep ld s c = some s' ∧ InSync s' := by
  obtain ⟨m, ⟨k, hk, rfl⟩, hreplica, hzero⟩ := h
  rw [hk.slotTtl] at hsafe
  obtain ⟨slot, t, r, hcall, hslot, hfollow, hzero'⟩ :=
    callHashCommand_of_wp hk (hashCommand_followed ld c hzero hsafe) c.cfg
  obtain ⟨slot', happly, hslot'⟩ :=
    hfollow c.rest c.envs s.2 (fun env henv => ⟨env, henv, rfl⟩) hreplica
  refine ⟨(slot, slot'), ?_, t.map.getD .empty, ⟨t.map, hslot, rfl⟩, hslot', hzero'⟩
  simp only [replicationStep, hcall, happly, bind_eq_bind, bind_some, pure_def]

/-- A replica that starts from the same fields follows the master through every history of commands
that are safe to replicate. -/
theorem replica_follows_master (ld : LongDoubleText) {master replica : Option HashObj}
    {k k' : Option TtlMap} (hmaster : SlotHolds master k) (hreplica : SlotHolds replica k')
    (hsame : ∀ f, slotGet master f = slotGet replica f) (hzero : ∀ f, slotTtl master f ≠ some 0)
    (calls : List ReplicatedCall)
    (hcalls : RunSatisfies (replicationStep ld) (fun s c => c.Safe (slotTtl s.1)) (master, replica)
      calls) :
    ∃ master' replica', runSteps (replicationStep ld) (master, replica) calls =
        some (master', replica') ∧ ∀ f, slotGet master' f = slotGet replica' f := by
  have hsync : InSync (master, replica) := by
    refine ⟨k.getD .empty, ⟨k, hmaster, rfl⟩, ⟨k', hreplica, ?_⟩, ?_⟩
    · funext f
      have h1 : slotGet master f = k.getD .empty f := SlotFields.slotGet ⟨k, hmaster, rfl⟩ f
      have h2 : slotGet replica f = k'.getD .empty f := SlotFields.slotGet ⟨k', hreplica, rfl⟩ f
      rw [← h1, ← h2, hsame]
    · rwa [hmaster.slotTtl] at hzero
  obtain ⟨⟨master', replica'⟩, hrun, m, h1, h2, -⟩ :=
    hcalls.invariant InSync (replicationStep_inSync ld) hsync
  exact ⟨master', replica', hrun, fun f => (h1.slotGet f).trans (h2.slotGet f).symm⟩

/-- A call whose propagated commands the replica executes at the time `later`. -/
def delayedCall (maxEntries now delay : ℕ) (cmd : HashCommand) (h : cmd.isReplicated = true) :
    ReplicatedCall where
  cmd := cmd
  isReplicated := h
  now := now
  cfg := ⟨maxEntries, 64, List.length, fun _ _ => true⟩
  envs := []
  rest := (now + delay, ⟨128, 64, List.length, fun _ _ => true⟩)
  later := by
    intro env henv
    obtain rfl : env = _ := List.mem_singleton.mp henv
    exact Nat.le_add_right now delay

/-- A replica that executes `HSETEX` when its time has already passed, and `HPERSIST` in time. -/
theorem replica_follows_master_late :
    let calls :=
      [delayedCall 128 10 70 (.hsetex .any (.expire (.pxat 50)) [([97], [49]), ([98], [50])]) rfl,
      delayedCall 128 20 20 (.hgetex .persist [[97]]) rfl,
      delayedCall 128 30 20 (.hexpire (.pxat 15) .always [[98]]) rfl]
    ∃ master' replica', runSteps (replicationStep noLongDouble) (none, none) calls =
        some (master', replica') ∧ ∀ f, slotGet master' f = slotGet replica' f :=
  replica_follows_master noLongDouble (.inl ⟨rfl, rfl⟩) (.inl ⟨rfl, rfl⟩) (fun _ => rfl)
    (fun _ => by simp [slotTtl]) _ (by decide +kernel)

/-- The replica executes `HPERSIST` when the field has expired and leaves it alone. And a master
with a dict sets a field that has the time 20 already, deletes another one because 20 has passed,
and does not propagate the new value. -/
theorem replica_diverges :
    let persist := [delayedCall 128 10 0 (.hset [([97], [49])]) rfl,
      delayedCall 128 10 0 (.hexpire (.pxat 20) .always [[97]]) rfl,
      delayedCall 128 15 10 (.hpersist [[97]]) rfl]
    let setex := [delayedCall 0 10 0 (.hset [([97], [49]), ([98], [50])]) rfl,
      delayedCall 0 10 0 (.hexpire (.pxat 20) .always [[97]]) rfl,
      delayedCall 0 30 0 (.hsetex .any (.expire (.pxat 20)) [([97], [51]), ([98], [52])]) rfl]
    (runSteps (replicationStep noLongDouble) (none, none) persist).map
        (fun s => (slotGet s.1 [97], slotGet s.2 [97])) =
        some (some ([49], none), some ([49], some 20)) ∧
      (runSteps (replicationStep noLongDouble) (none, none) setex).map
        (fun s => (slotGet s.1 [97], slotGet s.2 [97])) =
        some (some ([51], some 20), some ([49], some 20)) :=
  ⟨by decide +kernel, by decide +kernel⟩

end RainCall
