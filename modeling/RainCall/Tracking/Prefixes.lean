import RainCall.Foundation.Bytes
import RainCall.Foundation.Run

/-!
# Broadcast prefixes of client-side caching

A client in BCAST mode is registered for prefixes, and `PrefixTable` lists the clients of each
prefix. The prefixes of a client do not overlap, unless it asks for all keys when it has prefixes
already: the empty prefix is then added without a check. Changed keys are kept for each prefix
until a broadcast.
-/

namespace RainCall

open Function List Option

/-- `client_tracking_prefixes` of each client in the order of the tree, and `PrefixTable` with the
clients of each prefix. With BCAST and OFF calls only, a client has prefixes exactly if it has the
tracking flags. -/
structure TrackingState (C : Type*) where
  prefixes : C → List Bytes
  prefixTable : Bytes → Option (Finset C)

/-- The strings agree on the length of the shorter one. -/
def stringCheckPrefix (s1 s2 : Bytes) : Bool :=
  s1.take (min s1.length s2.length) = s2.take (min s1.length s2.length)

/-- The error replies of `checkPrefixCollisionsOrReply`. -/
inductive PrefixCollision
  /-- Prefix `p` overlaps with an existing prefix `q`. -/
  | existing (p q : Bytes)
  /-- Prefix `p` overlaps with another provided prefix `q`. -/
  | provided (p q : Bytes)

/-- `checkPrefixCollisionsOrReply`, with the prefixes of the client and the arguments. -/
def checkPrefixCollisions (own : List Bytes) : List Bytes → Option PrefixCollision
  | [] => none
  | p :: ps =>
    match own.find? (stringCheckPrefix · p), ps.find? (stringCheckPrefix p) with
    | some q, _ => some (.existing p q)
    | none, some q => some (.provided p q)
    | none, none => checkPrefixCollisions own ps

variable {C : Type*} [DecidableEq C]

/-- Registers the client for the prefix. Its own tree is only changed if it is a new client of the
prefix. -/
def enableBcastTrackingForPrefix (c : C) (s : TrackingState C) (p : Bytes) : TrackingState C :=
  let clients := (s.prefixTable p).getD ∅
  { prefixes := if c ∈ clients then s.prefixes
      else update s.prefixes c (((s.prefixes c).erase p).orderedInsert (· ≤ ·) p)
    prefixTable := update s.prefixTable p (some (insert c clients)) }

/-- A round of the loop of `disableTracking`, which asserts that the prefix is in the table. -/
def unsubscribePrefix (c : C) (table : Bytes → Option (Finset C)) (p : Bytes) :
    Option (Bytes → Option (Finset C)) := do
  let clients ← table p
  some (update table p (if clients.erase c = ∅ then none else some (clients.erase c)))

/-- CLIENT TRACKING of a client: ON BCAST with prefixes, or OFF. -/
inductive TrackingCall
  | bcast (ps : List Bytes)
  | off

/-- CLIENT TRACKING in `clientCommand`. An error reply changes nothing. -/
def clientTracking (s : TrackingState C) : C × TrackingCall → Option (TrackingState C)
  | (c, .bcast ps) =>
    if (checkPrefixCollisions (s.prefixes c) ps).isSome then some s
    else some ((if ps = [] then [[]] else ps).foldl (enableBcastTrackingForPrefix c) s)
  | (c, .off) => do
    let table ← (s.prefixes c).foldlM (unsubscribePrefix c) s.prefixTable
    some ⟨update s.prefixes c [], table⟩

namespace TrackingState

/-- `PrefixTable` is the inverse of the clients' prefixes and has no prefix without clients. -/
structure Inverse (s : TrackingState C) : Prop where
  table : ∀ c p, p ∈ s.prefixes c ↔ c ∈ (s.prefixTable p).getD ∅
  nonempty : ∀ p, s.prefixTable p ≠ some ∅
  nodup : ∀ c, (s.prefixes c).Nodup

/-- The prefixes of a client do not overlap. -/
def NoOverlap (s : TrackingState C) : Prop :=
  ∀ c, ∀ p ∈ s.prefixes c, ∀ q ∈ s.prefixes c, p <+: q → p = q

/-- A broadcast sends the key to the client because of the prefix: `trackingRememberKeyToBroadcast`
remembers the key for all prefixes that it has, and each of them is broadcast to its clients. -/
def SentFor (s : TrackingState C) (c : C) (key p : Bytes) : Prop :=
  p <+: key ∧ c ∈ (s.prefixTable p).getD ∅

/-- `stringCheckPrefix` finds an overlap in either direction. -/
lemma stringCheckPrefix_of_overlap {p q : Bytes} (h : p <+: q ∨ q <+: p) :
    stringCheckPrefix p q := by
  rcases h with h | h <;>
    simp [stringCheckPrefix, h.length_le, ← prefix_iff_eq_take.mp h]

/-- Arguments that pass the check overlap neither with the client's prefixes nor with each other. -/
lemma checkPrefixCollisions_eq_none {own ps : List Bytes}
    (h : checkPrefixCollisions own ps = none) {p q : Bytes} (hp : p ∈ ps)
    (hpq : p <+: q ∨ q <+: p) : q ∉ own ∧ (q ∈ ps → p = q) := by
  induction ps generalizing p q with
  | nil => simp at hp
  | cons p0 ps ih =>
    unfold checkPrefixCollisions at h
    split at h
    · cases h
    · cases h
    · rename_i hown hps
      rw [find?_eq_none] at hown hps
      rcases mem_cons.mp hp with rfl | hp'
      · refine ⟨fun hq => hown q hq (stringCheckPrefix_of_overlap hpq.symm), fun hq => ?_⟩
        rcases mem_cons.mp hq with rfl | hq
        · rfl
        · exact absurd (stringCheckPrefix_of_overlap hpq) (hps q hq)
      · obtain ⟨hnot, heq⟩ := ih h hp' hpq
        refine ⟨hnot, fun hq => ?_⟩
        rcases mem_cons.mp hq with rfl | hq
        · exact absurd (stringCheckPrefix_of_overlap hpq.symm) (hps p hp')
        · exact heq hq

variable {s : TrackingState C} {c : C}

/-- A registration adds the client to the entry of the prefix. -/
lemma mem_prefixTable_enable (p : Bytes) (c' : C) (q : Bytes) :
    c' ∈ ((enableBcastTrackingForPrefix c s p).prefixTable q).getD ∅ ↔
      c' ∈ (s.prefixTable q).getD ∅ ∨ c' = c ∧ q = p := by
  rcases eq_or_ne q p with rfl | hq
  · simp [enableBcastTrackingForPrefix, or_comm]
  · simp [enableBcastTrackingForPrefix, hq]

/-- A registration adds the prefix to those of the client. -/
lemma Inverse.mem_prefixes_enable (h : s.Inverse) (p : Bytes) (c' : C) (q : Bytes) :
    q ∈ (enableBcastTrackingForPrefix c s p).prefixes c' ↔ q ∈ s.prefixes c' ∨ c' = c ∧ q = p := by
  by_cases hc : c ∈ (s.prefixTable p).getD ∅
  · -- a client of the prefix has it already
    have hp := (h.table c p).mpr hc
    simp only [enableBcastTrackingForPrefix, hc, if_true, iff_self_or]
    rintro ⟨rfl, rfl⟩
    exact hp
  · rcases eq_or_ne c' c with rfl | hcc
    · have herase := (h.nodup c').mem_erase_iff (a := q) (b := p)
      rcases eq_or_ne q p with rfl | hq
      · simp [enableBcastTrackingForPrefix, hc]
      · simp [enableBcastTrackingForPrefix, hc, hq]
    · simp [enableBcastTrackingForPrefix, hc, hcc]

/-- A registration keeps the two tables inverse. -/
lemma Inverse.enablePrefix (h : s.Inverse) (p : Bytes) :
    (enableBcastTrackingForPrefix c s p).Inverse := by
  refine ⟨fun c' q => ?_, fun q => ?_, fun c' => ?_⟩
  · rw [h.mem_prefixes_enable, mem_prefixTable_enable, h.table]
  · rcases eq_or_ne q p with rfl | hq
    · simp [enableBcastTrackingForPrefix]
    · simpa [enableBcastTrackingForPrefix, hq] using h.nonempty q
  · unfold enableBcastTrackingForPrefix
    dsimp only
    split_ifs with hc
    · exact h.nodup c'
    · rcases eq_or_ne c' c with rfl | hcc
      · have hperm := perm_orderedInsert (· ≤ ·) p ((s.prefixes c').erase p)
        have hnodup := h.nodup c'
        rw [update_self, hperm.nodup_iff, nodup_cons]
        exact ⟨hnodup.not_mem_erase, hnodup.erase p⟩
      · rw [update_of_ne hcc]
        exact h.nodup c'

/-- CLIENT TRACKING ON with prefixes adds no other prefix, and none to another client. -/
lemma Inverse.enablePrefixes (h : s.Inverse) (ps : List Bytes) :
    (ps.foldl (enableBcastTrackingForPrefix c) s).Inverse ∧ ∀ c' q,
      q ∈ (ps.foldl (enableBcastTrackingForPrefix c) s).prefixes c' →
        q ∈ s.prefixes c' ∨ c' = c ∧ q ∈ ps := by
  induction ps generalizing s with
  | nil => exact ⟨h, fun _ _ => .inl⟩
  | cons p ps ih =>
    obtain ⟨hinv, hmem⟩ := ih (h.enablePrefix p)
    refine ⟨hinv, fun c' q hq => ?_⟩
    rcases hmem c' q hq with hold | ⟨hc, hq⟩
    · rcases (h.mem_prefixes_enable p c' q).mp hold with hold | ⟨hc, rfl⟩
      · exact .inl hold
      · exact .inr ⟨hc, mem_cons_self⟩
    · exact .inr ⟨hc, mem_cons_of_mem p hq⟩

/-- A round of the loop of TRACKING OFF finds the prefix and takes the client out of its entry. -/
lemma unsubscribePrefix_spec {table : Bytes → Option (Finset C)} {p : Bytes}
    (hne : ∀ p, table p ≠ some ∅) (hp : c ∈ (table p).getD ∅) :
    ∃ table', unsubscribePrefix c table p = some table' ∧ (∀ q, table' q ≠ some ∅) ∧
      ∀ q c', c' ∈ (table' q).getD ∅ ↔ c' ∈ (table q).getD ∅ ∧ ¬ (c' = c ∧ q = p) := by
  cases hclients : table p with
  | none => simp [hclients] at hp
  | some clients =>
    refine ⟨_, by rw [unsubscribePrefix, hclients]; rfl, fun q => ?_, fun q c' => ?_⟩
    · rcases eq_or_ne q p with rfl | hq
      · split_ifs with hempty
        · simp
        · simpa using hempty
      · rw [update_of_ne hq]
        exact hne q
    · rcases eq_or_ne q p with rfl | hq
      · have hlast : c' ∈ (if clients.erase c = ∅ then none else some (clients.erase c)).getD ∅ ↔
            c' ∈ clients.erase c := by
          split_ifs with hempty <;> simp [hempty]
        rw [update_self, hlast, hclients]
        simp [and_comm]
      · simp [hq]

/-- The loop of TRACKING OFF takes the client out of the entries of its prefixes. -/
lemma foldlM_unsubscribePrefix {table : Bytes → Option (Finset C)} {ps : List Bytes}
    (hnodup : ps.Nodup) (hne : ∀ p, table p ≠ some ∅) (hps : ∀ p ∈ ps, c ∈ (table p).getD ∅) :
    ∃ table', ps.foldlM (unsubscribePrefix c) table = some table' ∧ (∀ p, table' p ≠ some ∅) ∧
      ∀ p c', c' ∈ (table' p).getD ∅ ↔ c' ∈ (table p).getD ∅ ∧ ¬ (c' = c ∧ p ∈ ps) := by
  induction ps generalizing table with
  | nil => exact ⟨table, rfl, hne, by simp⟩
  | cons p ps ih =>
    obtain ⟨hp, hnodup⟩ := nodup_cons.mp hnodup
    obtain ⟨table1, hround, hne1, hmem1⟩ := unsubscribePrefix_spec hne (hps p mem_cons_self)
    -- the other prefixes still have the client
    have hps1 : ∀ q ∈ ps, c ∈ (table1 q).getD ∅ := fun q hq => (hmem1 q c).mpr
      ⟨hps q (mem_cons_of_mem p hq), fun heq => hp (heq.2 ▸ hq)⟩
    obtain ⟨table', hrun, hne', hmem'⟩ := ih hnodup hne1 hps1
    refine ⟨table', by rw [foldlM_cons, hround]; exact hrun, hne', fun q c' => ?_⟩
    rw [hmem', hmem1, and_assoc, ← not_or, ← and_or_left, mem_cons]

/-- The call does not ask for all keys when the client has other prefixes. -/
def Checked (s : TrackingState C) (op : C × TrackingCall) : Prop :=
  op.2 = .bcast [] → ∀ p ∈ s.prefixes op.1, p = []

/-- A call fails no assertion and keeps the tables inverse. If it is checked, it also keeps the
prefixes of each client apart. -/
lemma Inverse.step (h : s.Inverse) (op : C × TrackingCall) :
    ∃ s', clientTracking s op = some s' ∧ s'.Inverse ∧
      (s.Checked op → s.NoOverlap → s'.NoOverlap) := by
  obtain ⟨c, call⟩ := op
  cases call with
  | bcast ps =>
    rw [clientTracking]
    cases herr : checkPrefixCollisions (s.prefixes c) ps with
    | some e => exact ⟨s, rfl, h, fun _ => id⟩
    | none =>
      obtain ⟨hinv, hmem⟩ := h.enablePrefixes (if ps = [] then [[]] else ps)
      refine ⟨_, rfl, hinv, fun hchecked hno c' p hp q hq hpq => ?_⟩
      have hcheck := @checkPrefixCollisions_eq_none _ _ herr
      rcases eq_or_ne ps [] with rfl | hps
      · -- the empty prefix is new, and a checked client has no other one
        have hnil (r : Bytes) (hr : r ∈ s.prefixes c' ∨ c' = c ∧ r ∈ [[]]) (hc : c' = c) :
            r = [] := by
          rcases hr with hr | hr
          · exact hchecked rfl r (hc ▸ hr)
          · simpa using hr.2
        have hp' := hmem c' p hp
        have hq' := hmem c' q hq
        by_cases hc : c' = c
        · rw [hnil p hp' hc, hnil q hq' hc]
        · exact hno c' p (hp'.resolve_right fun h => hc h.1) q
            (hq'.resolve_right fun h => hc h.1) hpq
      · rw [if_neg hps] at hmem hp hq
        -- a new prefix overlaps neither with an old one nor with another new one
        rcases hmem c' p hp with hold | ⟨hc, hnew⟩
        · rcases hmem c' q hq with hold' | ⟨hc, hnew⟩
          · exact hno c' p hold q hold' hpq
          · exact absurd (hc ▸ hold) (hcheck hnew (.inr hpq)).1
        · rcases hmem c' q hq with hold | ⟨-, hnew'⟩
          · exact absurd (hc ▸ hold) (hcheck hnew (.inl hpq)).1
          · exact (hcheck hnew (.inl hpq)).2 hnew'
  | off =>
    obtain ⟨table, hrun, hne, hmem⟩ := foldlM_unsubscribePrefix (h.nodup c) h.nonempty
      fun p => (h.table c p).mp
    refine ⟨⟨update s.prefixes c [], table⟩, by rw [clientTracking, hrun]; rfl,
      ⟨fun c' p => ?_, hne, fun c' => ?_⟩, fun _ hno c' p hp => ?_⟩
    · rw [hmem, ← h.table]
      rcases eq_or_ne c' c with rfl | hc
      · simp
      · simp [hc]
    · rcases eq_or_ne c' c with rfl | hc
      · simp
      · simpa [update_of_ne hc] using h.nodup c'
    · rcases eq_or_ne c' c with rfl | hc
      · simp at hp
      · simp only [update_of_ne hc] at hp ⊢
        exact hno c' p hp

/-- No client is in tracking mode. -/
def initial : TrackingState C := ⟨fun _ => [], fun _ => none⟩

/-- **Prefixes of BCAST mode.**  After any calls `PrefixTable` maps each prefix to the clients that
are registered for it and has no prefix without clients. If no client asks for all keys while it has
other prefixes, then the prefixes of a client do not overlap, and a key is sent to it for one
prefix. -/
theorem tracking_prefixes (ops : List (C × TrackingCall)) :
    ∃ s, runSteps clientTracking initial ops = some s ∧
      (∀ c p, p ∈ s.prefixes c ↔ ∃ clients, s.prefixTable p = some clients ∧ c ∈ clients) ∧
      (∀ p, s.prefixTable p ≠ some ∅) ∧
      (RunSatisfies clientTracking Checked initial ops →
        s.NoOverlap ∧ ∀ c key p q, s.SentFor c key p → s.SentFor c key q → p = q) := by
  have h0 : (initial : TrackingState C).Inverse := ⟨by simp [initial],
    by simp [initial], by simp [initial]⟩
  obtain ⟨s, hrun, hinv⟩ := runSteps_invariant Inverse (fun _ => True)
    (fun s op _ h => (h.step op).imp fun s' hs' => ⟨hs'.1, hs'.2.1⟩) h0 (by simp : ∀ op ∈ ops, True)
  refine ⟨s, hrun, fun c p => ?_, hinv.nonempty, fun hchecked => ?_⟩
  · rw [hinv.table]
    cases s.prefixTable p <;> simp
  · have hno : s.NoOverlap := by
      refine (hchecked.invariant_of_some (fun s => s.Inverse ∧ s.NoOverlap) ?_ hrun
        ⟨h0, by simp [NoOverlap, initial]⟩).2
      intro s op s' hP hs hstep
      obtain ⟨s1, hs1, hinv1, hno1⟩ := hs.1.step op
      obtain rfl := some.inj (hstep.symm.trans hs1)
      exact ⟨hinv1, hno1 hP hs.2⟩
    refine ⟨hno, fun c key p q hp hq => ?_⟩
    have hp' := (hinv.table c p).mpr hp.2
    have hq' := (hinv.table c q).mpr hq.2
    rcases prefix_or_prefix_of_prefix hp.1 hq.1 with hpq | hqp
    · exact hno c p hp' q hq' hpq
    · exact (hno c q hq' p hp' hqp).symm

/-- A client with the prefix `f` asks for all keys: the two prefixes overlap, and the key `f` is
sent twice. -/
theorem tracking_prefixes_overlap :
    ∃ s, runSteps clientTracking (initial : TrackingState ℕ) [(0, .bcast [[102]]), (0, .bcast [])] =
      some s ∧ s.prefixes 0 = [[], [102]] ∧ ¬ s.NoOverlap ∧
        s.SentFor 0 [102] [] ∧ s.SentFor 0 [102] [102] := by
  refine ⟨_, rfl, by decide, fun h => ?_, ⟨by decide, by decide⟩, ⟨by decide, by decide⟩⟩
  exact absurd (h 0 [] (by decide) [102] (by decide) (by decide)) (by decide)

end TrackingState

/-! ### Broadcasts -/

/-- The state of BCAST mode, with the NOLOOP flags, and `bcastState.keys` of each prefix: the client
that changed a key last, or none for the server. -/
structure BcastState (C : Type*) extends TrackingState C where
  noloop : C → Bool
  keys : Bytes → Bytes → Option (Option C)

/-- Remembers the key for all prefixes of the table that it has. -/
def trackingRememberKeyToBroadcast (s : BcastState C) (c : Option C) (key : Bytes) :
    BcastState C :=
  { s with keys := fun p =>
      if s.prefixTable p ≠ none ∧ p <+: key then update (s.keys p) key (some c) else s.keys p }

/-- `trackingBroadcastInvalidationMessages` hands the key to `sendTrackingMessage` for the client
and the prefix. In NOLOOP mode `trackingBuildBroadcastReply` leaves out the keys that the client
changed itself. -/
def BcastState.sends (s : BcastState C) (c : C) (p key : Bytes) : Bool :=
  c ∈ (s.prefixTable p).getD ∅ ∧ (s.keys p key).any fun m => ¬ (s.noloop c ∧ m = some c)

/-- What `sendTrackingMessage` reads of the connections: protocol version, Pub/Sub flag, and
REDIRECT with the client of this id, if there still is one. -/
structure Connections (C : Type*) where
  resp : C → ℕ
  pubsub : C → Bool
  redirection : C → Option (Option C)

/-- The connection that gets the message of the client, none if the message is not sent: RESP2 has
no push messages, and a connection with RESP2 gets those of others in Pub/Sub mode only. If the
redirection is broken, the client is told so at most. -/
def Connections.sendTrackingMessage (conns : Connections C) (c : C) : Option C :=
  match conns.redirection c with
  | none => if 2 < conns.resp c then some c else none
  | some none => none
  | some (some redir) => if 2 < conns.resp redir ∨ conns.pubsub redir then some redir else none

/-- The broadcast delivers the key at the connection because the client is registered for the
prefix. -/
def BcastState.delivers (s : BcastState C) (conns : Connections C) (c : C) (p : Bytes)
    (receiver : C) (key : Bytes) : Bool :=
  conns.sendTrackingMessage c = some receiver ∧ s.sends c p key

/-- CLIENT TRACKING, with or without NOLOOP, the change of a key by a client or the server, and
`trackingBroadcastInvalidationMessages`. -/
inductive BcastOp (C : Type*)
  | call (op : C × TrackingCall) (noloop : Bool)
  | change (c : Option C) (key : Bytes)
  | broadcast

/-- The NOLOOP flags after CLIENT TRACKING. An error reply leaves them alone. -/
def BcastState.noloopAfter (s : BcastState C) (noloop : Bool) : C × TrackingCall → C → Bool
  | (c, .bcast ps) =>
    if (checkPrefixCollisions (s.prefixes c) ps).isSome then s.noloop else update s.noloop c noloop
  | (c, .off) => update s.noloop c false

/-- A step of BCAST mode, none if an assertion fails. -/
def bcastStep (s : BcastState C) : BcastOp C → Option (BcastState C)
  | .call op noloop => do
    let t ← clientTracking s.toTrackingState op
    -- the keys of a prefix are freed with its last client
    some ⟨t, s.noloopAfter noloop op, fun p => if t.prefixTable p = none then fun _ => none
      else s.keys p⟩
  | .change c key => some (trackingRememberKeyToBroadcast s c key)
  | .broadcast => some { s with keys := fun _ _ => none }

/-- The keys changed since the last broadcast, with the client that changed them last. -/
def changesStep (changes : Bytes → Option (Option C)) :
    BcastOp C → Bytes → Option (Option C)
  | .call _ _ => changes
  | .change c key => update changes key (some c)
  | .broadcast => fun _ => none

namespace BcastState

variable {s : BcastState C} {c : C} {p : Bytes} {changes : Bytes → Option (Option C)}

/-- The client is registered for the prefix, and the changes of its keys are remembered. -/
structure Remembers (c : C) (p : Bytes) (s : BcastState C)
    (changes : Bytes → Option (Option C)) : Prop where
  inverse : s.Inverse
  client : c ∈ (s.prefixTable p).getD ∅
  keys : ∀ key, s.keys p key = if p <+: key then changes key else none

/-- A client keeps its prefixes until it turns tracking off. -/
lemma mem_clientTracking {t t' : TrackingState C} (h : t.Inverse) {op : C × TrackingCall}
    (hop : op ≠ (c, .off)) (ht : clientTracking t op = some t')
    (hc : c ∈ (t.prefixTable p).getD ∅) : c ∈ (t'.prefixTable p).getD ∅ := by
  obtain ⟨c', call⟩ := op
  cases call with
  | bcast ps =>
    have hfold (ps : List Bytes) :
        c ∈ ((ps.foldl (enableBcastTrackingForPrefix c') t).prefixTable p).getD ∅ := by
      apply foldlRecOn ps (enableBcastTrackingForPrefix c')
        (motive := fun t => c ∈ (t.prefixTable p).getD ∅) hc
      exact fun t ht q _ => (TrackingState.mem_prefixTable_enable q c p).mpr (.inl ht)
    rw [clientTracking] at ht
    split_ifs at ht <;> obtain rfl := some.inj ht
    exacts [hc, hfold _, hfold _]
  | off =>
    obtain ⟨table, htable, ht⟩ := bind_eq_some_iff.mp ht
    obtain ⟨table', htable', -, hmem⟩ := TrackingState.foldlM_unsubscribePrefix (h.nodup c')
      h.nonempty fun p => (h.table c' p).mp
    obtain rfl := some.inj (htable.symm.trans htable')
    obtain rfl := some.inj ht
    exact (hmem p c).mpr ⟨hc, fun heq => hop (heq.1 ▸ rfl)⟩

/-- A step fails no assertion, and the changes are still remembered. -/
lemma Remembers.step (h : Remembers c p s changes) {op : BcastOp C}
    (hop : ∀ noloop, op ≠ .call (c, .off) noloop) :
    ∃ s', bcastStep s op = some s' ∧ Remembers c p s' (changesStep changes op) := by
  have hne (t : TrackingState C) (hc : c ∈ (t.prefixTable p).getD ∅) : t.prefixTable p ≠ none :=
    fun hnone => by simp [hnone] at hc
  cases op with
  | call op noloop =>
    obtain ⟨t, ht, hinv, -⟩ := h.inverse.step op
    have hc := mem_clientTracking h.inverse (fun heq => hop noloop (heq ▸ rfl)) ht h.client
    refine ⟨⟨t, _, _⟩, by rw [bcastStep, ht]; rfl, hinv, hc, ?_⟩
    simpa [changesStep, hne t hc] using h.keys
  | change c' key =>
    refine ⟨_, rfl, h.inverse, h.client, fun k => ?_⟩
    have hk := h.keys k
    have hp := hne _ h.client
    by_cases hkey : p <+: key
    · rcases eq_or_ne k key with rfl | hne
      · simp [changesStep, trackingRememberKeyToBroadcast, hp, hkey]
      · simp [changesStep, trackingRememberKeyToBroadcast, hp, hkey, hne, hk]
    · -- a key without the prefix is not remembered for it
      have hne : p <+: k → k ≠ key := fun hpk heq => hkey (heq ▸ hpk)
      simp +contextual [changesStep, trackingRememberKeyToBroadcast, hkey, hne, hk]
  | broadcast => exact ⟨_, rfl, h.inverse, h.client, fun _ => by simp [changesStep]⟩

/-- No step fails an assertion. -/
lemma inverse_step (h : s.Inverse) (op : BcastOp C) :
    ∃ s', bcastStep s op = some s' ∧ s'.Inverse := by
  cases op with
  | call op noloop =>
    obtain ⟨t, ht, hinv, -⟩ := h.step op
    exact ⟨⟨t, _, _⟩, by rw [bcastStep, ht]; rfl, hinv⟩
  | change c key => exact ⟨_, rfl, h⟩
  | broadcast => exact ⟨_, rfl, h⟩

/-- No client is in tracking mode, and no key is remembered. -/
def initial : BcastState C := ⟨.initial, fun _ => false, fun _ _ => none⟩

/-- **Delivery of invalidations.** Let a client be registered for a prefix at a broadcast. Until it
turns tracking off, whatever calls, changes and broadcasts follow, the next broadcast sends for it
and the prefix exactly the keys with this prefix that were changed since the last one, in NOLOOP
mode without those that it changed last itself. They arrive at the connection that
`sendTrackingMessage` finds then: at the client itself in RESP3, or at the client that it redirects
to. -/
theorem broadcast_delivery (before ops : List (BcastOp C)) (c : C)
    (hops : ∀ noloop, .call (c, .off) noloop ∉ ops) :
    ∃ s, runSteps bcastStep initial (before ++ [.broadcast]) = some s ∧ ∀ p ∈ s.prefixes c,
      ∃ s', runSteps bcastStep s ops = some s' ∧ ∀ (conns : Connections C) (receiver : C) key,
        s'.delivers conns c p receiver key ↔ conns.sendTrackingMessage c = some receiver ∧
          p <+: key ∧ ∃ m, ops.foldl changesStep (fun _ => none) key = some m ∧
            ¬ (s'.noloop c ∧ m = some c) := by
  have h0 : (initial : BcastState C).Inverse := by
    constructor <;> simp [initial, TrackingState.initial]
  obtain ⟨s, hs, hinv⟩ := runSteps_invariant (fun s : BcastState C => s.Inverse) (fun _ => True)
    (fun s op _ h => inverse_step h op) h0 (by simp : ∀ op ∈ before, True)
  refine ⟨_, by rw [runSteps_append, hs]; rfl, fun p hp => ?_⟩
  have hstart : Remembers c p { s with keys := fun _ _ => none } fun _ => none :=
    ⟨hinv, (hinv.table c p).mp hp, by simp⟩
  obtain ⟨s', hs', hrem⟩ := runSteps_simulation changesStep (Remembers c p) (· ∈ ops)
    (fun s changes op hop h => h.step fun noloop heq => hops noloop (heq ▸ hop)) hstart fun _ => id
  refine ⟨s', hs', fun conns receiver key => ?_⟩
  have hsends : s'.sends c p key ↔ p <+: key ∧ ∃ m,
      ops.foldl changesStep (fun _ => none) key = some m ∧ ¬ (s'.noloop c ∧ m = some c) := by
    have hclient := hrem.client
    rw [sends, hrem.keys key]
    split_ifs with hp <;> simp [hp, hclient, Option.any_eq_true, imp_iff_not_or]
  rw [delivers, decide_eq_true_iff, hsends]

/-- Client 0 in NOLOOP mode redirects to client 1, which has RESP2 and is in Pub/Sub mode. It
changes `fa` and `fb`, and then the server changes `fa`: client 1 is sent `fa` only. -/
theorem broadcast_delivery_noloop :
    ∃ s s' : BcastState ℕ,
      runSteps bcastStep initial [.call (0, .bcast [[102]]) true, .broadcast] = some s ∧
      runSteps bcastStep s [.change (some 0) [102, 97], .change (some 0) [102, 98],
        .change none [102, 97]] = some s' ∧ s'.noloop 0 ∧
      s'.delivers ⟨fun _ => 2, fun _ => true, fun _ => some (some 1)⟩ 0 [102] 1 [102, 97] ∧
      ¬ s'.delivers ⟨fun _ => 2, fun _ => true, fun _ => some (some 1)⟩ 0 [102] 1 [102, 98] := by
  obtain ⟨s, hs, h⟩ := broadcast_delivery [.call (0, .bcast [[102]]) true]
    [.change (some 0) [102, 97], .change (some 0) [102, 98], .change none [102, 97]] 0 (by simp)
  obtain rfl := some.inj hs
  obtain ⟨s', hs', hdelivers⟩ := h [102] (by decide)
  obtain rfl := some.inj hs'
  exact ⟨_, _, rfl, rfl, rfl,
    (hdelivers _ _ _).mpr ⟨by decide, by decide, none, rfl, by decide⟩, by decide⟩

end BcastState

end RainCall
