import RainCall.Hash.CommandLoops
import RainCall.Foundation.Run

/-!
# Do the replies depend on the encoding?

A client executes `HSET`, `HSETEX`, `HDEL`, `HGET`, `HPERSIST` and the `HEXPIRE` and `HTTL` families
on a master. The encodings differ in two places. A field whose expiry time is set to the very time
it has, and that time has passed, is deleted from a listpack and kept in a dict. And the `HTTL`
family takes a field that expires right now for expired in a listpack only. As long as no command
meets one of the two, the replies do not depend on the encoding (`encodings_reply_alike`).
-/

namespace RainCall

open CommandResult Option Program

/-- The commands in question. -/
def HashCommand.isTtlCommand : HashCommand → Bool
  | .hset _ => true
  | .hsetex .. => true
  | .hdel _ => true
  | .hget _ => true
  | .hpersist _ => true
  | .hexpire .. => true
  | .httl .. => true
  | _ => false

/-- The command does not depend on the encoding if the fields have these expiry times. -/
def HashCommand.Unambiguous (now : ℕ) (ttl : Bytes → Option ℕ) : HashCommand → Prop
  | .hsetex _ (.expire arg) fvs =>
    match parseExpireTime "hsetex" ⟨now, true⟩ arg with
    | .ok t => t ≤ now → ∀ fv ∈ fvs, ttl fv.1 ≠ some t
    | .error _ => True
  | .hexpire arg cond fields =>
    match parseExpireTime arg.commandName ⟨now, true⟩ arg with
    | .ok t => t ≤ now → cond.allows (some t) t = true → ∀ f ∈ fields, ttl f ≠ some t
    | .error _ => True
  | .httl _ _ fields => ∀ f ∈ fields, ttl f ≠ some now
  | _ => True

instance HashCommand.Unambiguous.decidable (now : ℕ) (ttl : Bytes → Option ℕ)
    (cmd : HashCommand) : Decidable (cmd.Unambiguous now ttl) := by
  unfold HashCommand.Unambiguous
  split
  · split <;> infer_instance
  · split <;> infer_instance
  · infer_instance
  · infer_instance

/-- A command of the history, with its time and the configurations of two servers. -/
structure EncodingCall where
  cmd : HashCommand
  isTtlCommand : cmd.isTtlCommand = true
  now : ℕ
  /-- The configuration that forces the dict encoding, or any other one. -/
  ht : HashConfig
  /-- The configuration that allows listpacks, or any other one. -/
  lp : HashConfig

/-- The key and the replies so far. -/
structure HashClient where
  slot : Option HashObj
  replies : List HashReply

/-- A client executes a command on a master with one of the configurations. -/
def execHash (ld : LongDoubleText) (cfg : EncodingCall → HashConfig) (s : HashClient)
    (c : EncodingCall) : Option HashClient := do
  let r ← callHashCommand ld (cfg c) ⟨c.now, true⟩ s.slot c.cmd
  return ⟨r.1, s.replies ++ [r.2.1]⟩

/-! ### One command -/

section Determined

variable {now : ℕ} {m : TtlMap} {supports : Prop} {hdels : List Bytes}

variable {cond : ExpireSetCond} {ttl : SetexTtl} {fvs : List (Bytes × Bytes)}
  {fields : List Bytes}

/-- Away from its own time, `hashTypeSetEx` does not depend on the encoding. -/
lemma ttlSetEx_eq_of_ne {isHT : Bool} {f : Bytes} {t : ℕ}
    (h : t ≤ now → cond.allows (some t) t = true → m.ttl f ≠ some t) :
    ttlSetEx isHT ⟨now, true⟩ m cond f (some t) = ttlSetEx false ⟨now, true⟩ m cond f (some t) := by
  cases hf : m f with
  | none => simp [ttlSetEx, hf]
  | some x =>
    obtain ⟨v, prev⟩ := x
    by_cases hle : t ≤ now
    · rw [ttlSetEx_of_some hf, ttlSetEx_of_some hf, Bool.false_and, if_neg Bool.false_ne_true]
      by_cases hallow : cond.allows prev t = true
      · have hne : ¬ (isHT && prev == some t) = true := fun hsame => by
          obtain ⟨-, rfl⟩ : isHT = true ∧ prev = some t := by simpa using hsame
          exact h hle hallow (by rw [TtlMap.ttl, hf]; rfl)
        rw [if_neg hne]
      · simp [hallow]
    · have hexp : HashCtx.alreadyExpired ⟨now, true⟩ t = false := by
        simpa [HashCtx.alreadyExpired] using hle
      rw [ttlSetEx_some_of_not_expired hf hexp, ttlSetEx_some_of_not_expired hf hexp]

/-- The loop of the `HEXPIRE` family. -/
lemma hexpireLoop_determined {t : ℕ} (hmax : t ≤ ebExpireTimeMax) (fields : List Bytes) (m : TtlMap)
    (hdels : List Bytes)
    (h : t ≤ now → cond.allows (some t) t = true → ∀ f ∈ fields, m.ttl f ≠ some t) :
    ∃ m' hdels' rs, (hexpireLoop cond t fields).wp (hashSpec ⟨now, true⟩)
      (fun s r => s = ⟨some m', True, hdels'⟩ ∧ r = rs) ⟨some m, True, hdels⟩ := by
  induction fields generalizing m hdels with
  | nil => exact ⟨m, hdels, [], rfl, rfl⟩
  | cons f fields ih =>
    obtain ⟨m', hdels', rs, hwp⟩ := ih (ttlSetEx false ⟨now, true⟩ m cond f (some t)).1
      (if (ttlSetEx false ⟨now, true⟩ m cond f (some t)).2 = .deleted then hdels ++ [f] else hdels)
      (fun hle hallow g hg httl =>
        h hle hallow g (List.mem_cons_of_mem f hg) (ttl_of_ttlSetEx_past hle httl))
    refine ⟨m', hdels', (f, (ttlSetEx false ⟨now, true⟩ m cond f (some t)).2) :: rs, ?_⟩
    rw [hexpireLoop, wp_bind, wp_setEx]
    refine ⟨⟨.inl rfl, by simpa using hmax⟩, fun isHT => ?_⟩
    rw [ttlSetEx_eq_of_ne fun hle hallow => h hle hallow f List.mem_cons_self, wp_bind]
    refine hwp.of_eq ?_
    exact ⟨rfl, rfl⟩

lemma hsetexLoop_determined {t : ℕ} (hmax : t ≤ ebExpireTimeMax)
    (fvs : List (Bytes × Bytes)) (m : TtlMap)
    (hdels : List Bytes) (h : t ≤ now → ∀ fv ∈ fvs, m.ttl fv.1 ≠ some t) :
    ∃ m' hdels' n, (hsetexLoop true (some t) fvs).wp (hashSpec ⟨now, true⟩)
      (fun s r => s = ⟨some m', True, hdels'⟩ ∧ r = n) ⟨some m, True, hdels⟩ := by
  induction fvs generalizing m hdels with
  | nil => exact ⟨m, hdels, 0, rfl, rfl⟩
  | cons fv fvs ih =>
    obtain ⟨f, v⟩ := fv
    have hkeep := m.ttl_ttlSet_keep f v
    obtain ⟨m', hdels', n, hwp⟩ :=
      ih (ttlSetEx false ⟨now, true⟩ (ttlSet m f v true) .always f (some t)).1
        (if (ttlSetEx false ⟨now, true⟩ (ttlSet m f v true) .always f (some t)).2 = .deleted
          then hdels ++ [f] else hdels)
        (fun hle gv hgv httl => by
          refine h hle gv (List.mem_cons_of_mem _ hgv) ?_
          rw [← hkeep]
          exact ttl_of_ttlSetEx_past hle httl)
    refine ⟨m', hdels', n + (if (ttlSetEx false ⟨now, true⟩ (ttlSet m f v true) .always f
      (some t)).2 = .deleted then 1 else 0), ?_⟩
    rw [hsetexLoop, wp_bind, wp_setField, wp_bind, wp_setEx]
    refine ⟨⟨.inl rfl, by simpa using hmax⟩, fun isHT => ?_⟩
    rw [ttlSetEx_eq_of_ne fun hle _ => (hkeep f).symm ▸ h hle (f, v) List.mem_cons_self,
      wp_bind]
    refine hwp.of_eq ?_
    exact ⟨rfl, rfl⟩

/-- The map and the reply do not depend on the encoding. -/
def Determined (now : ℕ) (p : HashProg CommandResult) (t : KeySpec) : Prop :=
  ∃ m' reply, p.wp (hashSpec ⟨now, true⟩) (fun s r => s.map = m' ∧ r.reply = reply) t

section

variable {cond : FieldCond} {t : Option ℕ} (hkeep : t.isSome = true → ttl ≠ .discard)
  (hmax : ∀ t' ∈ t, t' ≤ ebExpireTimeMax)
  (h : ∀ t', t = some t' → t' ≤ now → ∀ fv ∈ fvs, m.ttl fv.1 ≠ some t')
include hkeep hmax h

/-- `HSETEX` once its condition is met. -/
lemma hsetexApply_determined :
    Determined now (hsetexApply cond ttl t fvs) ⟨some m, supports, hdels⟩ := by
  cases t with
  | none =>
    refine ⟨(ttlSetAll (ttl ≠ .discard) m fvs).orDeleted, .int 1, ?_⟩
    simp [hsetexApply, wp_when, wp_hsetexLoop_none]
  | some t =>
    obtain ⟨m', hdels', n, hwp⟩ := hsetexLoop_determined (hmax t rfl) fvs m hdels (h t rfl)
    refine ⟨m'.orDeleted, .int 1, ?_⟩
    rw [wp_hsetexApply_some (hkeep rfl)]
    refine hwp.of_eq ?_
    simp

lemma hsetexChecked_determined :
    Determined now (hsetexChecked ⟨now, true⟩ cond ttl t fvs) ⟨some m, supports, hdels⟩ := by
  unfold hsetexChecked
  split_ifs with hany
  · exact hsetexApply_determined hkeep hmax h
  obtain ⟨found, expired, dels, hwp, -⟩ :=
    @hsetexCheck_spec ⟨now, true⟩ supports cond (fvs.map Prod.fst) m hdels
  by_cases hfail : (cond = .fnx ∧ found ≠ 0) ∨ (cond = .fxx ∧ found ≠ fvs.length)
  · by_cases hexpired : expired ≠ 0
    · refine ⟨(m.without dels).orDeleted, .int 0, ?_⟩
      rw [wp_bind]
      refine hwp.of_eq ?_
      simp [hfail, wp_when, hexpired, unchanged]
    · refine ⟨some (m.without dels), .int 0, ?_⟩
      rw [wp_bind]
      refine hwp.of_eq ?_
      simp [hfail, wp_when, hexpired, unchanged]
  · obtain ⟨m', reply, happly⟩ := @hsetexApply_determined now (m.without dels) supports
      (hdels ++ dels) ttl fvs cond t hkeep hmax
      (fun t' ht' hle fv hfv httl => h t' ht' hle fv hfv (TtlMap.ttl_without httl))
    refine ⟨m', reply, ?_⟩
    rw [wp_bind]
    refine hwp.of_eq ?_
    rw [if_neg hfail]
    exact happly

end

lemma hsetexCommand_determined {cond : FieldCond} {m : Option TtlMap}
    (h : (HashCommand.hsetex cond ttl fvs).Unambiguous now (m.getD .empty).ttl) :
    Determined now (hsetexCommand ⟨now, true⟩ cond ttl fvs) ⟨m, False, []⟩ := by
  unfold hsetexCommand
  cases ht : hsetexTime ⟨now, true⟩ ttl with
  | error msg => exact ⟨m, .error msg, rfl, rfl⟩
  | ok t =>
    obtain ⟨hkeep, htime⟩ : (t.isSome = true → ttl ≠ .discard) ∧
        ∀ t', t = some t' → t' ≤ now → ∀ fv ∈ fvs, (m.getD .empty).ttl fv.1 ≠ some t' := by
      rcases hsetexTime_cases ht with ⟨rfl, -⟩ | ⟨arg, t, rfl, rfl, hparse⟩
      · simp
      · refine ⟨by simp, ?_⟩
        rintro _ ⟨⟩
        simpa [HashCommand.Unambiguous, hparse] using h
    cases m with
    | none =>
      by_cases hcond : cond = .fxx
      · exact ⟨none, .int 0, by simp [hcond, unchanged]⟩
      · obtain ⟨m', reply, hwp⟩ := @hsetexChecked_determined now TtlMap.empty False [] _ _ cond _
          hkeep (hsetexTime_le_max ht) htime
        refine ⟨m', reply, ?_⟩
        simpa [hcond, wp_when] using hwp
    | some m =>
      obtain ⟨m', reply, hwp⟩ := @hsetexChecked_determined now m False [] _ _ cond _ hkeep
        (hsetexTime_le_max ht) htime
      refine ⟨m', reply, ?_⟩
      simpa [wp_when] using hwp

/-- The `HEXPIRE` family. -/
lemma hexpireGenericCommand_determined {arg : ExpireArg} {m : Option TtlMap}
    (h : (HashCommand.hexpire arg cond fields).Unambiguous now (m.getD .empty).ttl) :
    Determined now (hexpireGenericCommand ⟨now, true⟩ arg cond fields) ⟨m, False, []⟩ := by
  unfold hexpireGenericCommand
  cases hparse : parseExpireTime arg.commandName ⟨now, true⟩ arg with
  | error msg => exact ⟨m, .error msg, rfl, rfl⟩
  | ok t =>
    simp only [HashCommand.Unambiguous, hparse] at h
    cases m with
    | none => exact ⟨none, _, by simp [unchanged]; rfl⟩
    | some m =>
      obtain ⟨m', hdels', rs, hwp⟩ :=
        hexpireLoop_determined (parseExpireTime_le_max hparse) fields m [] h
      refine ⟨m'.orDeleted, .ints (rs.map fun r => r.2.reply), ?_⟩
      simp only [wp_bind, wp_lookupKey, isSome_some, if_true, wp_setExInit]
      refine hwp.of_eq ?_
      simp

lemma hpersistCommand_determined {m : Option TtlMap} :
    Determined now (hpersistCommand ⟨now, true⟩ fields) ⟨m, False, []⟩ := by
  cases m with
  | none => exact ⟨none, _, by simp [hpersistCommand, unchanged]; rfl⟩
  | some m =>
    refine ⟨some (fields.foldl (ttlPersist now) m), .ints (persistReplies now m fields), ?_⟩
    simp only [hpersistCommand, wp_bind, wp_lookupKey, isSome_some, if_true,
      wp_encoding]
    intro enc henc
    by_cases hlp : enc = .listpack
    · have hnone := @foldl_ttlPersist_of_no_ttl m now (henc hlp) fields
      simp [hlp, wp_noTtlLoop, unchanged, hnone.1, hnone.2]
    · simp [hlp, wp_hpersistLoop]

lemma httlGenericCommand_determined {relative : Bool} {unit : TimeUnit} {m : Option TtlMap}
    (h : ∀ f ∈ fields, (m.getD .empty).ttl f ≠ some now) :
    Determined now (httlGenericCommand ⟨now, true⟩ relative unit fields) ⟨m, False, []⟩ := by
  cases m with
  | none => exact ⟨none, _, by simp [httlGenericCommand, unchanged]; rfl⟩
  | some m =>
    let basetime := if relative then now else 0
    refine ⟨some m, .ints (fields.map (httlReply (fun e => e < now) basetime unit m)), ?_⟩
    simp only [httlGenericCommand, wp_bind, wp_lookupKey, isSome_some, if_true,
      wp_encoding]
    intro enc henc
    cases enc with
    | listpack =>
      simp only [wp_bind, wp_noTtlLoop, wp_pure, unchanged,
        HashReply.ints.injEq, true_and]
      refine List.map_congr_left fun f _ => ?_
      rcases hf : m f with _ | ⟨v, _ | e⟩
      · simp [httlReply, hf]
      · simp [httlReply, hf]
      · exact absurd hf (henc rfl f v e)
    | listpackEx =>
      simp only [wp_bind, wp_httlLoop, wp_pure, unchanged,
        HashReply.ints.injEq, true_and]
      refine List.map_congr_left fun f hf => ?_
      -- The two comparisons differ at the time of the command only.
      have hne : ∀ v e, m f = some (v, some e) → (e ≤ now ↔ e < now) := by
        intro v e hfe
        have hne : e ≠ now := by
          rintro rfl
          exact h f hf (by simp [TtlMap.ttl, hfe])
        omega
      rcases hfe : m f with _ | ⟨v, _ | e⟩
      · simp [httlReply, hfe]
      · simp [httlReply, hfe]
      · simp only [httlReply, hfe, hne v e hfe]
        rfl
    | ht =>
      simp only [wp_bind, wp_httlLoop, wp_pure, unchanged, true_and]
      rfl

lemma readFieldCommand_determined {f : Bytes} {reply : Option Bytes → HashReply}
    {m : Option TtlMap} :
    Determined now (readFieldCommand ⟨now, true⟩ f reply) ⟨m, False, []⟩ := by
  cases m with
  | none => exact ⟨none, reply none, by simp [readFieldCommand, unchanged]⟩
  | some m =>
    cases hexp : HashCtx.isExpired ⟨now, true⟩ (m.ttl f) with
    | false =>
      refine ⟨some m, reply (m.live ⟨now, true⟩ f), ?_⟩
      simp [readFieldCommand, wp_hashTypeGetValue, hexp, unchanged]
    | true =>
      by_cases hempty : Function.update m f none = TtlMap.empty
      · refine ⟨none, reply none, ?_⟩
        simp [readFieldCommand, wp_hashTypeGetValue, hexp, hempty, unchanged,
          GetFieldRes.value]
      · refine ⟨some (Function.update m f none), reply none, ?_⟩
        simp [readFieldCommand, wp_hashTypeGetValue, hexp, hempty, unchanged,
          GetFieldRes.value]

/-- The result of a command that is not ambiguous is determined by the map. -/
lemma hashCommand_determined (ld : LongDoubleText) {cmd : HashCommand} {m : Option TtlMap}
    (hcmd : cmd.isTtlCommand = true) (h : cmd.Unambiguous now (m.getD .empty).ttl) :
    Determined now (hashCommand ld ⟨now, true⟩ cmd) ⟨m, False, []⟩ := by
  cases cmd with
  | hset fvs =>
    obtain ⟨n, hn⟩ := @hsetLoop_spec ⟨now, true⟩ False [] fvs (m.getD .empty)
    refine ⟨some (ttlSetAll false (m.getD .empty) fvs), .int n, ?_⟩
    simp only [hashCommand, hsetCommand, wp_bind, wp_hashTypeLookupWriteOrCreate,
      wp_tryConversion]
    refine hn.of_eq ?_
    exact ⟨rfl, rfl⟩
  | hsetex cond ttl fvs => exact hsetexCommand_determined h
  | hdel fields =>
    cases m with
    | none =>
      exact ⟨none, .int 0, by simp [hashCommand, hdelCommand, unchanged]⟩
    | some m =>
      obtain ⟨n, b, hwp, -⟩ := @hdelLoop_spec ⟨now, true⟩ False [] fields m
      refine ⟨if b then none else some (m.without fields), .int n, ?_⟩
      simp only [hashCommand, hdelCommand, wp_bind, wp_lookupKey, isSome_some,
        if_true]
      refine hwp.of_eq ?_
      cases b <;> simp [wp_when]
  | hget f => exact readFieldCommand_determined
  | hpersist fields => exact hpersistCommand_determined
  | hexpire arg cond fields => exact hexpireGenericCommand_determined h
  | httl relative unit fields => exact httlGenericCommand_determined h
  | hsetnx _ _ | hincrby _ _ | hincrbyfloat _ _ | hmget _ | hexists _ | hstrlen _ | hgetex _ _
  | hgetdel _ => cases hcmd

end Determined

/-! ### Histories -/

/-- Two servers hold the same map and have sent the same replies. -/
def HashClient.Alike (s₁ s₂ : HashClient) : Prop :=
  s₁.replies = s₂.replies ∧ ∃ m, SlotHolds s₁.slot m ∧ SlotHolds s₂.slot m

lemma execHash_alike (ld : LongDoubleText) (s1 s2 : HashClient) (c : EncodingCall)
    (hc : c.cmd.Unambiguous c.now (slotTtl s1.slot)) (h : s1.Alike s2) :
    ∃ t1 t2, execHash ld EncodingCall.ht s1 c = some t1 ∧
      execHash ld EncodingCall.lp s2 c = some t2 ∧ t1.Alike t2 := by
  obtain ⟨hreplies, m, h1, h2⟩ := h
  rw [h1.slotTtl] at hc
  obtain ⟨t, r, hwp⟩ := hashCommand_determined ld c.isTtlCommand hc
  obtain ⟨slot1, t1, r1, hcall1, hslot1, hmap1, hreply1⟩ := callHashCommand_of_wp h1 hwp c.ht
  obtain ⟨slot2, t2, r2, hcall2, hslot2, hmap2, hreply2⟩ := callHashCommand_of_wp h2 hwp c.lp
  refine ⟨⟨slot1, s1.replies ++ [r1.reply]⟩, ⟨slot2, s2.replies ++ [r2.reply]⟩, ?_, ?_, ?_,
    t1.map, hslot1, ?_⟩
  · rw [execHash, hcall1]
    rfl
  · rw [execHash, hcall2]
    rfl
  · simp only [hreplies, hreply1, hreply2]
  · rwa [hmap1, ← hmap2]

/-- The replies of a history do not depend on the encodings if no command of it is ambiguous. -/
theorem encodings_reply_alike (ld : LongDoubleText) (calls : List EncodingCall)
    (hcalls : RunSatisfies (execHash ld EncodingCall.ht)
      (fun s c => c.cmd.Unambiguous c.now (slotTtl s.slot)) ⟨none, []⟩ calls) :
    ∃ s₁ s₂, runSteps (execHash ld EncodingCall.ht) ⟨none, []⟩ calls = some s₁ ∧
      runSteps (execHash ld EncodingCall.lp) ⟨none, []⟩ calls = some s₂ ∧
      s₁.replies = s₂.replies := by
  have hinit : HashClient.Alike ⟨none, []⟩ ⟨none, []⟩ :=
    ⟨rfl, none, .inl ⟨rfl, rfl⟩, .inl ⟨rfl, rfl⟩⟩
  obtain ⟨s₁, s₂, h1, h2, h⟩ := hcalls.lockstep HashClient.Alike (execHash_alike ld) hinit
  exact ⟨s₁, s₂, h1, h2, h.1⟩

/-- A command for a server that uses dicts only and for one that uses listpacks. -/
def dictOrListpack (now : ℕ) (cmd : HashCommand) (h : cmd.isTtlCommand = true) : EncodingCall :=
  ⟨cmd, h, now, ⟨0, 64, List.length, fun _ _ => true⟩, ⟨128, 64, List.length, fun _ _ => true⟩⟩

/-- A field that expires between two commands. -/
theorem encodings_reply_alike_expiring :
    let calls := [dictOrListpack 10 (.hset [([97], [49])]) rfl,
      dictOrListpack 10 (.hexpire (.pxat 20) .nx [[97], [98]]) rfl,
      dictOrListpack 15 (.httl true .milliseconds [[97]]) rfl,
      dictOrListpack 21 (.hget [97]) rfl]
    ∃ s₁ s₂, runSteps (execHash noLongDouble EncodingCall.ht) ⟨none, []⟩ calls = some s₁ ∧
      runSteps (execHash noLongDouble EncodingCall.lp) ⟨none, []⟩ calls = some s₂ ∧
      s₁.replies = s₂.replies :=
  encodings_reply_alike noLongDouble _ (by decide +kernel)

/-- A field expires at 20. `HPTTL` at 20 finds it in the dict and not in the listpack, and
`HPEXPIREAT` with the time 20 at 30 updates it in the dict and deletes it from the listpack. -/
theorem encodings_reply_differently :
    let calls := [dictOrListpack 10 (.hset [([97], [49])]) rfl,
      dictOrListpack 10 (.hexpire (.pxat 20) .always [[97]]) rfl,
      dictOrListpack 20 (.httl true .milliseconds [[97]]) rfl,
      dictOrListpack 30 (.hexpire (.pxat 20) .always [[97]]) rfl]
    (runSteps (execHash noLongDouble EncodingCall.ht) ⟨none, []⟩ calls).map HashClient.replies =
        some [.int 1, .ints [1], .ints [0], .ints [1]] ∧
      (runSteps (execHash noLongDouble EncodingCall.lp) ⟨none, []⟩ calls).map HashClient.replies =
        some [.int 1, .ints [1], .ints [-2], .ints [2]] := by
  decide +kernel

end RainCall
