import RainCall.Keyspace.Spec

/-!
# The key API on the entries

For every function of the key API: what it does to the entries that the state represents. The
functions that take a value object need the object to be stored nowhere; the functions that change
an expire time need the new time not to be `-1`, which stands for "no TTL" in the slot.
-/

namespace RainCall

open KeyMap Keyspace Option RedisDb

variable {V : Type} (cfg : KeyspaceConfig V)

@[simp] lemma Keyspace.modifyDb_heap (s : Keyspace V) (d : ℕ) (f : RedisDb → RedisDb) :
    (s.modifyDb d f).heap = s.heap := rfl

lemma Keyspace.modifyDb_db (s : Keyspace V) (d : ℕ) (f : RedisDb → RedisDb) (d' : ℕ) :
    (s.modifyDb d f).db d' = if d' = d then f (s.db d) else s.db d' :=
  Function.update_apply ..

variable {f : RedisDb → RedisDb} {val : Addr} {v : RedisObject V} {ptr : V} {k : Bytes}

/-- A change of one key in a dictionary `dict` of the database `d`. -/
lemma Keyspace.modifyDb_lookup (dict : RedisDb → Finmap fun _ : Bytes => Addr) (s : Keyspace V)
    (d : ℕ) {x : Option Addr}
    (hf : ∀ k', (dict (f (s.db d))).lookup k' = if k' = k then x else (dict (s.db d)).lookup k') :
    SetsKey dict s (s.modifyDb d f) d k x := by
  intro d' k'
  rw [modifyDb_db]
  by_cases hd : d' = d
  · subst hd
    simp [hf]
  · simp [hd]

variable {d : ℕ}

/-- A dictionary that does not change. -/
lemma Keyspace.lookup_same (dict : RedisDb → Finmap fun _ : Bytes => Addr) (s : Keyspace V)
    {x : Option Addr} (hx : (dict (s.db d)).lookup k = x) : SetsKey dict s s d k x := by
  intro d' k'
  split_ifs with hk
  · rw [hk.1, hk.2, hx]
  · rfl

/-- A change of a database that leaves a part `g` of it alone. -/
lemma Keyspace.modifyDb_proj {β : Type*} (g : RedisDb → β) (s : Keyspace V) (d : ℕ)
    (hf : g (f (s.db d)) = g (s.db d)) (d' : ℕ) : g ((s.modifyDb d f).db d') = g (s.db d') := by
  rw [modifyDb_db]
  split_ifs with hd
  · rw [hf, hd]
  · rfl

lemma Keyspace.modifyDb_lookup_same (dict : RedisDb → Finmap fun _ : Bytes => Addr)
    (s : Keyspace V) {x : Option Addr} (hf : dict (f (s.db d)) = dict (s.db d))
    (hx : (dict (s.db d)).lookup k = x) : SetsKey dict s (s.modifyDb d f) d k x := by
  intro d' k'
  rw [modifyDb_proj dict s d hf, ← lookup_same dict s hx]

section Frames

variable {s : Keyspace V} {held : Option Addr} {K : KeyMap V} {d' : ℕ} {k' : Bytes}
  {a a' : Addr} {o : RedisObject V} {e : KeyEntry V}

section

variable (h : s.Indexes held K) (ha : (s.db d).keys.lookup k = some a)
include h ha

lemma Keyspace.Indexes.entry_of_lookup (ho : s.heap.lookup a = some o) :
    ∃ e, K d k = some e ∧ o.Stores k e ∧ (held ≠ some a → o.Retainable) := by
  obtain ⟨o', e, ho', he, hst, hre⟩ := h.stored ha
  rw [ho] at ho'
  cases ho'
  exact ⟨e, he, hst, hre⟩

lemma Keyspace.Indexes.mem_heap :
    a ∈ s.heap := by
  obtain ⟨o, -, ho, -⟩ := h.stored ha
  exact Finmap.lookup_isSome.mp (by rw [ho]; rfl)

/-- Another key has another object. -/
lemma Keyspace.Indexes.ne_of_other (hk : ¬ (d' = d ∧ k' = k))
    (ha' : (s.db d').keys.lookup k' = some a') : a' ≠ a := by
  rintro rfl
  exact hk (h.injective ha' ha)

end

/-- An address that is not allocated is stored nowhere. -/
lemma Keyspace.Indexes.unowned_of_notMem (h : s.Indexes held K) (ha : a ∉ s.heap) :
    s.Unowned a :=
  fun _ _ hlookup => ha (h.mem_heap hlookup)

/-- An operation that points the key to an object at `a'`, and leaves the other keys and their
objects alone. -/
lemma Keyspace.Indexes.store {s' : Keyspace V} (h : s.Indexes held K)
    (hkeys : SetsKey RedisDb.keys s s' d k (some a'))
    (hexpires : SetsKey RedisDb.expires s s' d k (if e.ttl = none then none else some a'))
    (ho : s'.heap.lookup a' = some o) (hst : o.Stores k e) (hre : o.Retainable)
    (hother : ∀ d' k' a, ¬ (d' = d ∧ k' = k) → (s.db d').keys.lookup k' = some a →
      a ≠ a' ∧ s'.heap.lookup a = s.heap.lookup a) :
    s'.Indexes held (K.set d k (some e)) := by
  refine h.replace (some a') hkeys hexpires ?_ (by simp) fun d' k' a hk ha => ?_
  · rintro a1 ⟨⟩
    exact ⟨o, e, ho, rfl, hst, fun _ => hre⟩
  · obtain ⟨hne, hheap⟩ := hother d' k' a hk ha
    exact ⟨fun heq => hne (some.inj heq).symm, hheap, id⟩

/-- The object of a key is changed in place, and the key keeps its TTL or changes it. -/
lemma Keyspace.Indexes.inPlace {e' : KeyEntry V} {heap : ObjHeap V} (h : s.Indexes held K)
    (ha : (s.db d).keys.lookup k = some a) (he : K d k = some e)
    (httl : e'.ttl = none ↔ e.ttl = none) (ho : heap.lookup a = some o) (hst : o.Stores k e')
    (hre : o.Retainable) (hheap : ∀ d' k' a1, ¬ (d' = d ∧ k' = k) →
      (s.db d').keys.lookup k' = some a1 → heap.lookup a1 = s.heap.lookup a1) :
    Keyspace.Indexes { s with heap := heap } held (K.set d k (some e')) := by
  have hexp := h.expires d k
  simp only [he, ha, bind_some, ← httl] at hexp
  refine h.store (lookup_same RedisDb.keys s ha) (lookup_same RedisDb.expires s hexp) ho hst hre ?_
  exact fun d' k' a1 hk ha1 => ⟨h.ne_of_other ha hk ha1, hheap d' k' a1 hk ha1⟩

lemma Keyspace.Unowned.ne (hu : s.Unowned a) (ha : (s.db d).keys.lookup k = some a') : a' ≠ a := by
  rintro rfl
  exact hu d k ha

/-- The key has a TTL exactly if its object has an expire time. -/
lemma RedisObject.Stores.ttl_eq_none_iff (h : o.Stores k e) :
    e.ttl = none ↔ kvobjGetExpire o = -1 := by
  rw [← h.ttl_eq]
  unfold ttlOfExpire
  split_ifs with ht <;> simp [ht]

/-- An object with an expire time has a slot for it. -/
lemma expire_ne_none_of_getExpire (h : kvobjGetExpire o ≠ -1) : o.expire ≠ none := by
  intro hnone
  rw [kvobjGetExpire, hnone] at h
  exact h rfl

end Frames

/-! ### `setExpire` and `removeExpire` -/

variable {s : Keyspace V} {K : KeyMap V} {e : KeyEntry V}

/-- `setExpireByLink` assigns the TTL of the key. The object stays in place if it has a slot. -/
lemma Keyspace.Indexes.setExpireByLink {a : Addr} {o : RedisObject V} (h : s.Indexes none K)
    (ha : (s.db d).keys.lookup k = some a) (ho : s.heap.lookup a = some o) (he : K d k = some e)
    {time : ℤ} (htime : time ≠ -1) :
    ∃ a' s', RainCall.setExpireByLink cfg s d k time = some (a', s') ∧
      s'.Indexes none (K.set d k (some { e with ttl := some time })) ∧
      (∀ d', (s'.db d').keysizes = (s.db d').keysizes) ∧
      (o.expire ≠ none → a' = a) ∧ (s'.db d).keys.lookup k = some a' := by
  obtain ⟨e', he', hst, hre⟩ := h.entry_of_lookup ha ho
  rw [he] at he'
  cases he'
  obtain ⟨a', heap', o', hset, hfresh, ho', hst', hre', hplace, hframe⟩ :=
    kvobjSetExpire_spec cfg ho hst (hre (by simp)) time
  rw [ttlOfExpire, if_neg htime] at hst'
  -- the objects of the other keys are not touched
  have hother : ∀ d' k' a1, ¬ (d' = d ∧ k' = k) → (s.db d').keys.lookup k' = some a1 →
      a1 ≠ a' ∧ heap'.lookup a1 = s.heap.lookup a1 := by
    intro d' k' a1 hk ha1
    have hne : a1 ≠ a := h.ne_of_other ha hk ha1
    have hne' : a1 ≠ a' := by
      rcases hfresh with rfl | hnotMem
      · exact hne
      · exact (h.unowned_of_notMem hnotMem).ne ha1
    exact ⟨hne', hframe a1 hne hne'⟩
  have hexp := h.expires d k
  rw [he, bind_some] at hexp
  unfold RainCall.setExpireByLink
  simp only [ha, ho, hset, bind_eq_bind, bind_some]
  by_cases hold : kvobjGetExpire o = -1
  · rw [if_neg (not_not.mpr hold)]
    rw [if_pos (hst.ttl_eq_none_iff.mpr hold)] at hexp
    simp only [ho', hst'.key_eq, bind_some, hexp, if_true]
    have hkeys : ∀ k', (if a' = a then (s.db d).keys else (s.db d).keys.insert k a').lookup k' =
        if k' = k then some a' else (s.db d).keys.lookup k' := by
      intro k'
      by_cases haa : a' = a
      · rw [if_pos haa]
        split_ifs with hk
        · rw [hk, ha, haa]
        · rfl
      · rw [if_neg haa, lookup_insert_ite]
    refine ⟨a', _, rfl, ?_, ?_, hplace, ?_⟩
    · exact h.store (modifyDb_lookup RedisDb.keys _ d hkeys)
        (modifyDb_lookup RedisDb.expires _ d (lookup_insert_ite _ k · a')) ho' hst' hre' hother
    · exact modifyDb_proj keysizes _ d rfl
    · rw [modifyDb_db, if_pos rfl]
      exact (hkeys k).trans (if_pos rfl)
  · have haa : a' = a := hplace (expire_ne_none_of_getExpire hold)
    subst haa
    rw [if_pos hold, if_pos rfl]
    refine ⟨a', _, rfl, ?_, fun _ => rfl, fun _ => rfl, ha⟩
    have hsome : e.ttl ≠ none := mt hst.ttl_eq_none_iff.mp hold
    exact h.inPlace ha he (by simp [hsome]) ho' hst' hre' fun d' k' a1 hk ha1 =>
      (hother d' k' a1 hk ha1).2

lemma Keyspace.Indexes.removeExpire (h : s.Indexes none K) (d : ℕ) (k : Bytes) :
    ∃ b s', RainCall.removeExpire cfg s d k = some (b, s') ∧
      s'.Indexes none (K.set d k ((K d k).map fun e => { e with ttl := none })) ∧
      (∀ d', (s'.db d').keysizes = (s.db d').keysizes) ∧ (∀ d', (s'.db d').keys = (s.db d').keys) ∧
      ∀ b, s.Unowned b → s'.heap.lookup b = s.heap.lookup b := by
  have hexp := h.expires d k
  unfold RainCall.removeExpire
  by_cases httl : (K d k).bind KeyEntry.ttl = none
  · rw [if_pos httl] at hexp
    rw [hexp]
    have hK : (K d k).map (fun e => { e with ttl := none }) = K d k := by
      cases he : K d k with
      | none => rfl
      | some e =>
        rw [he, bind_some] at httl
        rw [map_some, ← httl]
    rw [hK, KeyMap.set_eq_self]
    exact ⟨false, s, rfl, h, fun _ => rfl, fun _ => rfl, fun _ _ => rfl⟩
  · obtain ⟨e, he, hne⟩ : ∃ e, K d k = some e ∧ e.ttl ≠ none := by
      cases he : K d k with
      | none =>
        rw [he] at httl
        exact absurd rfl httl
      | some e =>
        rw [he] at httl
        exact ⟨e, rfl, httl⟩
    obtain ⟨a, o, ha, ho, hst, hre⟩ := h.lookup_of_some he
    obtain ⟨a', heap', o', hset, -, ho', hst', hre', hplace, hframe⟩ :=
      kvobjSetExpire_spec cfg ho hst (hre (by simp)) (-1)
    have haa : a' = a := hplace (expire_ne_none_of_getExpire (mt hst.ttl_eq_none_iff.mpr hne))
    subst haa
    rw [if_neg httl, ha] at hexp
    simp only [hexp, hset, bind_eq_bind, bind_some, if_true, he, map_some]
    refine ⟨true, _, rfl, ?_, modifyDb_proj keysizes _ d rfl, ?_, ?_⟩
    · refine h.store (modifyDb_lookup_same RedisDb.keys _ rfl ha)
        (modifyDb_lookup RedisDb.expires _ d (lookup_erase_ite _ k)) ho' hst' hre' ?_
      intro d' k' a1 hk ha1
      have hne1 : a1 ≠ a' := h.ne_of_other ha hk ha1
      exact ⟨hne1, hframe a1 hne1 hne1⟩
    · exact modifyDb_proj RedisDb.keys _ d rfl
    · intro b hb
      exact hframe b (hb.ne ha).symm (hb.ne ha).symm

/-! ### Adding, replacing and deleting keys -/

lemma updateKeysizesHist_keysizes (s : Keyspace V) (d : ℕ) (type : ObjType)
    (oldLen newLen : Option ℕ) (d' : ℕ) :
    ((updateKeysizesHist s d type oldLen newLen).db d').keysizes =
      if d' = d then kvsUpdateHistogram (s.db d).keysizes type oldLen newLen
      else (s.db d').keysizes := by
  unfold updateKeysizesHist
  rw [modifyDb_db]
  split_ifs <;> rfl

variable {held : Option Addr}

lemma Keyspace.Indexes.updateKeysizesHist
    (h : s.Indexes held K) (d : ℕ) (type : ObjType) (oldLen newLen : Option ℕ) :
    (RainCall.updateKeysizesHist s d type oldLen newLen).Indexes held K := by
  have hdb : ∀ d', ((RainCall.updateKeysizesHist s d type oldLen newLen).db d').keys =
      (s.db d').keys ∧ ((RainCall.updateKeysizesHist s d type oldLen newLen).db d').expires =
      (s.db d').expires := by
    intro d'
    unfold RainCall.updateKeysizesHist
    rw [modifyDb_db]
    split_ifs with hd
    · rw [hd]
      exact ⟨rfl, rfl⟩
    · exact ⟨rfl, rfl⟩
  refine ⟨fun {d' k a} ha => ?_, fun {d' k} ha => ?_, fun {d1 k1 d2 k2 a} h1 h2 => ?_,
    fun d' k => ?_⟩
  · rw [(hdb d').1] at ha
    exact h.stored ha
  · rw [(hdb d').1] at ha
    exact h.absent ha
  · rw [(hdb _).1] at h1 h2
    exact h.injective h1 h2
  · rw [(hdb d').1, (hdb d').2]
    exact h.expires d' k

/-- `dbAddInternal` adds the value under the key, with the TTL of the metadata. -/
lemma Keyspace.Holds.dbAddInternal {keymeta : Option ℤ} (h : s.Holds cfg none K) (hk : K d k = none)
    (hval : s.heap.lookup val = some v) (hv : v.Sharable) (hptr : v.ptr = some ptr)
    (hu : s.Unowned val) (hmeta : keymeta ≠ some (-1)) :
    ∃ s', RainCall.dbAddInternal cfg s d k val keymeta = some s' ∧
      s'.Holds cfg none (K.set d k (some ⟨v.type, ptr, keymeta⟩)) := by
  obtain ⟨a, heap1, kv, hset, hfresh, hkv, hst, hre, hbit, hframe⟩ :=
    kvobjSet_spec cfg k hval hv hptr keymeta.isSome
  have hua : s.Unowned a := h.indexes.unowned_of_notMem hfresh
  set s1 := modifyDb { s with heap := heap1 } d fun db =>
    { db with keys := db.keys.insert k a } with hs1
  -- the key is stored, with no TTL yet
  have hidx1 : s1.Indexes none (K.set d k (some ⟨v.type, ptr, none⟩)) := by
    have hexp := h.indexes.expires d k
    rw [hk] at hexp
    refine h.indexes.store (modifyDb_lookup keys _ d (lookup_insert_ite _ k · a))
      (modifyDb_lookup_same expires _ rfl hexp) hkv hst hre fun d' k' a1 _ ha1 => ?_
    exact ⟨hua.ne ha1, hframe a1 (hu.ne ha1) (hua.ne ha1)⟩
  have hkeysizes1 : ∀ d', (s1.db d').keysizes = (s.db d').keysizes :=
    modifyDb_proj keysizes _ d rfl
  have hlookup1 : (s1.db d).keys.lookup k = some a := by
    rw [modifyDb_db, if_pos rfl]
    exact Finmap.lookup_insert _
  -- then the TTL is set, in place because the slot was allocated
  obtain ⟨s2, hs2, hidx2, hkeysizes2, hlookup2⟩ : ∃ s2,
      (keymeta.elim (some s1) fun expire => (RainCall.setExpireByLink cfg s1 d k expire).bind
        fun p => if p.1 = a then some p.2 else none) = some s2 ∧
      s2.Indexes none (K.set d k (some ⟨v.type, ptr, keymeta⟩)) ∧
      (∀ d', (s2.db d').keysizes = (s.db d').keysizes) ∧
      (s2.db d).keys.lookup k = some a := by
    cases keymeta with
    | none => exact ⟨s1, rfl, hidx1, hkeysizes1, hlookup1⟩
    | some expire =>
      have hne : expire ≠ -1 := fun heq => hmeta (by rw [heq])
      obtain ⟨a', s2, hs2, hidx2, hkeysizes2, hplace, hlookup2⟩ :=
        hidx1.setExpireByLink cfg hlookup1 hkv (set_self ..) hne
      have haa : a' = a := hplace (hbit rfl)
      subst haa
      refine ⟨s2, ?_, ?_, fun d' => (hkeysizes2 d').trans (hkeysizes1 d'), hlookup2⟩
      · simp [hs2]
      · rw [set_set] at hidx2
        exact hidx2
  obtain ⟨o2, e2, ho2, he2, hst2, -⟩ := hidx2.stored hlookup2
  rw [set_self] at he2
  cases he2
  refine ⟨RainCall.updateKeysizesHist s2 d o2.type none (some (getObjectLength cfg o2)), ?_,
    hidx2.updateKeysizesHist .., ?_⟩
  · unfold RainCall.dbAddInternal
    simp only [hset, Option.bind_eq_bind]
    refine (congrArg (Option.bind · _) hs2).trans ?_
    simp only [ho2, Option.bind_some]
  · refine h.counts.replace h.indexes (hidx2.updateKeysizesHist ..) (fun d' hd => ?_)
      fun t b ht => ?_
    · rw [updateKeysizesHist_keysizes, if_neg hd, hkeysizes2]
    · rw [updateKeysizesHist_keysizes, if_pos rfl, kvsUpdateHistogram_apply _ _ _ _ ht, hkeysizes2,
        hst2.getObjectLength, hst2.type_eq]
      simp [histClass, hk, KeyEntry.histClass_eq_iff ht]

/-- What the deletion of the key `k` does to the pointers and objects. -/
structure Keyspace.Deletes (s s' : Keyspace V) (d : ℕ) (k : Bytes) : Prop where
  keys : ∀ d' k', (s'.db d').keys.lookup k' =
    if d' = d ∧ k' = k then none else (s.db d').keys.lookup k'
  heap : ∀ b, (s.db d).keys.lookup k ≠ some b → s'.heap.lookup b = s.heap.lookup b
  /-- The object survives if it was given another reference. -/
  retained : ∀ a o, (s.db d).keys.lookup k = some a → o.Retainable →
    s.heap.lookup a = some { o with refcount := o.refcount + 1 } → s'.heap.lookup a = some o

lemma Keyspace.Holds.dbGenericDelete (h : s.Holds cfg held K) (d : ℕ) (k : Bytes) :
    ∃ s', RainCall.dbGenericDelete cfg s d k true = some ((K d k).isSome, s') ∧
      s'.Holds cfg held (K.set d k none) ∧ s.Deletes s' d k := by
  unfold RainCall.dbGenericDelete
  cases ha : (s.db d).keys.lookup k with
  | none =>
    have hK : K d k = none := h.indexes.absent ha
    refine ⟨s, by simp [hK], ?_, ?_, fun _ _ => rfl, by simp [ha]⟩
    · rw [← hK, set_eq_self]
      exact h
    · exact lookup_same keys s ha
  | some a =>
    obtain ⟨o, e, ho, he, hst, -⟩ := h.indexes.stored ha
    obtain ⟨heap1, hdecr, hframe⟩ := decrRefCount_spec ho hst.refcount_pos
    simp only [ho, hdecr, he, if_true]
    set s1 := modifyDb { s with heap := heap1 } d fun db =>
      { db with
        keys := db.keys.erase k
        expires := if kvobjGetExpire o ≠ -1 then db.expires.erase k else db.expires } with hs1
    have hkeys : SetsKey keys s s1 d k none :=
      modifyDb_lookup keys _ d (lookup_erase_ite _ k)
    have hidx1 : s1.Indexes held (K.set d k none) := by
      refine h.indexes.replace none hkeys ?_ (by simp) (fun _ => rfl) ?_
      · have hexp := h.indexes.expires d k
        rw [he, bind_some] at hexp
        simp only [bind_none, if_true]
        by_cases hexpire : kvobjGetExpire o = -1
        · rw [if_pos (hst.ttl_eq_none_iff.mpr hexpire)] at hexp
          exact modifyDb_lookup_same expires _ (if_neg (not_not.mpr hexpire)) hexp
        · refine modifyDb_lookup expires _ d fun k' => ?_
          rw [if_pos hexpire]
          exact lookup_erase_ite _ k k'
      · intro d' k' a1 hk ha1
        exact ⟨by simp, hframe a1 (h.indexes.ne_of_other ha hk ha1), id⟩
    have hkeys' : ∀ d', ((updateKeysizesHist s1 d o.type (some (getObjectLength cfg o)) none).db
        d').keys = (s1.db d').keys := modifyDb_proj keys _ d rfl
    refine ⟨_, rfl, ⟨hidx1.updateKeysizesHist .., ?_⟩, ?_, fun b hb => ?_,
      fun a1 o1 ha1 hre ho1 => ?_⟩
    · have hsize1 : ∀ d', (s1.db d').keysizes = (s.db d').keysizes :=
        modifyDb_proj keysizes _ d rfl
      refine h.counts.replace h.indexes (hidx1.updateKeysizesHist ..) (fun d' hd => ?_)
        fun t b ht => ?_
      · rw [updateKeysizesHist_keysizes, if_neg hd, hsize1]
      · rw [updateKeysizesHist_keysizes, if_pos rfl, kvsUpdateHistogram_apply _ _ _ _ ht, hsize1,
          hst.getObjectLength, hst.type_eq]
        simp [histClass, he, KeyEntry.histClass_eq_iff ht]
    · intro d' k'
      rw [hkeys', hkeys]
    · exact hframe b fun hb' => hb (by rw [ha, hb'])
    · rw [ha] at ha1
      cases ha1
      rw [decrRefCount_retained hre ho1] at hdecr
      cases hdecr
      exact Finmap.lookup_insert _

/-- `dbDelete` removes the entry. -/
lemma Keyspace.Holds.dbDelete (h : s.Holds cfg held K) (d : ℕ) (k : Bytes) :
    ∃ s', RainCall.dbDelete cfg s d k = some s' ∧ s'.Holds cfg held (K.set d k none) ∧
      s.Deletes s' d k := by
  obtain ⟨s', hs', hrest⟩ := h.dbGenericDelete cfg d k
  exact ⟨s', by rw [RainCall.dbDelete, hs', map_some], hrest⟩

/-- The swap branch of `dbSetValue` replaces the value, and clears the TTL if it is not kept and not
negative. -/
lemma Keyspace.Indexes.dbSwapValue {a : Addr} {old : RedisObject V} (h : s.Indexes none K)
    (ha : (s.db d).keys.lookup k = some a) (hold : s.heap.lookup a = some old) (he : K d k = some e)
    (hval : s.heap.lookup val = some v) (hptr : v.ptr = some ptr) (hu : s.Unowned val)
    (hswap : old.swappable v) {keepTTL : Bool} (hneg : keepTTL = false → -1 ≤ kvobjGetExpire old) :
    ∃ s', RainCall.dbSwapValue cfg s d k a val keepTTL = some s' ∧
      s'.Indexes none (K.set d k (some ⟨v.type, ptr, if keepTTL then e.ttl else none⟩)) ∧
      (∀ d', (s'.db d').keysizes = (s.db d').keysizes) ∧ (∀ d', (s'.db d').keys = (s.db d').keys) ∧
      ∃ f, s'.heap.lookup val = some f ∧ 0 < f.refcount := by
  obtain ⟨e', he', hst, hre⟩ := h.entry_of_lookup ha hold
  rw [he] at he'
  cases he'
  simp only [RedisObject.swappable, decide_eq_true_eq] at hswap
  obtain ⟨hone, -, hvone, -⟩ := hswap
  have hne : a ≠ val := hu.ne ha
  set o1 : RedisObject V :=
    { old with type := v.type, encoding := v.encoding, ptr := v.ptr } with ho1
  set f : RedisObject V := { v with type := old.type, encoding := old.encoding, ptr := old.ptr }
    with hf
  set s1 : Keyspace V := { s with heap := (s.heap.insert a o1).insert val f } with hs1
  have ha1 : s1.heap.lookup a = some o1 := by
    rw [Finmap.lookup_insert_of_ne _ hne, Finmap.lookup_insert]
  have hval1 : s1.heap.lookup val = some f := Finmap.lookup_insert _
  have hidx1 : s1.Indexes none (K.set d k (some ⟨v.type, ptr, e.ttl⟩)) := by
    refine h.inPlace ha he Iff.rfl ha1 ⟨hst.key_eq, rfl, hptr, hst.ttl_eq, hst.refcount_pos⟩
      ⟨⟨hst.refcount_pos, .inl hone⟩, (hre (by simp)).refcount_lt⟩ fun d' k' a1 hk hlookup => ?_
    rw [Finmap.lookup_insert_of_ne _ (hu.ne hlookup),
      Finmap.lookup_insert_of_ne _ (h.ne_of_other ha hk hlookup)]
  unfold RainCall.dbSwapValue
  simp only [hold, hval, bind_eq_bind, bind_some]
  by_cases hclear : ¬ keepTTL ∧ 0 ≤ kvobjGetExpire old
  · obtain ⟨b, s2, hs2, hidx2, hkeysizes, hkeys, hframe⟩ := hidx1.removeExpire cfg d k
    rw [if_pos hclear, hs2]
    refine ⟨s2, rfl, ?_, hkeysizes, hkeys, f, ?_, ?_⟩
    · rw [KeyMap.set_self, KeyMap.set_set] at hidx2
      rw [if_neg hclear.1]
      exact hidx2
    · rw [hframe val hu, hval1]
    · exact Nat.lt_of_lt_of_eq Nat.one_pos hvone.symm
  · rw [if_neg hclear]
    refine ⟨s1, rfl, ?_, fun _ => rfl, fun _ => rfl, f, hval1,
      Nat.lt_of_lt_of_eq Nat.one_pos hvone.symm⟩
    cases keepTTL with
    | true => exact hidx1
    | false =>
      -- the slot is negative, so it is `-1` and there is no TTL to clear
      have hminus : kvobjGetExpire old = -1 := by
        have := hneg rfl
        simp only [Bool.false_eq_true, not_false_iff, true_and] at hclear
        omega
      rw [hst.ttl_eq_none_iff.mpr hminus] at hidx1
      exact hidx1

/-- The other branch of `dbSetValue` stores a new object, and leaves the old one unowned. -/
lemma Keyspace.Indexes.dbReplaceObject {a : Addr} {old : RedisObject V} (h : s.Indexes none K)
    (ha : (s.db d).keys.lookup k = some a) (hold : s.heap.lookup a = some old) (he : K d k = some e)
    (hval : s.heap.lookup val = some v) (hv : v.Sharable) (hptr : v.ptr = some ptr)
    (hu : s.Unowned val) (keepTTL : Bool) :
    ∃ a' s', RainCall.dbReplaceObject cfg s d k a val keepTTL = some (a', s') ∧
      s'.Indexes none (K.set d k (some ⟨v.type, ptr, if keepTTL then e.ttl else none⟩)) ∧
      (∀ d', (s'.db d').keysizes = (s.db d').keysizes) ∧ (s'.db d).keys.lookup k = some a' ∧
      s'.heap.lookup a = some old ∧ s'.Unowned a := by
  obtain ⟨e', he', hst, -⟩ := h.entry_of_lookup ha hold
  rw [he] at he'
  cases he'
  have hne : a ≠ val := hu.ne ha
  have hexp := h.expires d k
  rw [he, bind_some, ha] at hexp
  obtain ⟨a', heap1, kv, hset, hfresh, hkv, hkvst, hkvre, hbit, hframe⟩ :=
    kvobjSet_spec cfg k hval hv hptr (keepTTL && decide (kvobjGetExpire old ≠ -1))
  have hua' : s.Unowned a' := h.unowned_of_notMem hfresh
  set s1 := Keyspace.modifyDb { s with heap := heap1 } d fun db =>
    { db with keys := db.keys.insert k a' } with hs1
  have hkeys1 : SetsKey RedisDb.keys s s1 d k (some a') :=
    modifyDb_lookup RedisDb.keys _ d (lookup_insert_ite _ k · a')
  have hkeysizes1 : ∀ d', (s1.db d').keysizes = (s.db d').keysizes :=
    modifyDb_proj keysizes _ d rfl
  have hexpires1 : ∀ d', (s1.db d').expires = (s.db d').expires :=
    modifyDb_proj RedisDb.expires _ d rfl
  -- it is enough to know the final object and the final index
  suffices hfinal : ∃ s', RainCall.dbReplaceObject cfg s d k a val keepTTL = some (a', s') ∧
      (∀ d', (s'.db d').keys = (s1.db d').keys) ∧
      (∀ d', (s'.db d').keysizes = (s1.db d').keysizes) ∧
      SetsKey RedisDb.expires s s' d k
        (if (if keepTTL then e.ttl else none) = none then none else some a') ∧
      (∃ o, s'.heap.lookup a' = some o ∧
        o.Stores k ⟨v.type, ptr, if keepTTL then e.ttl else none⟩ ∧ o.Retainable) ∧
      ∀ b, b ≠ a' → s'.heap.lookup b = heap1.lookup b by
    obtain ⟨s', hs', hkeys', hkeysizes', hexpires', ⟨o, ho, host, hore⟩, hheap'⟩ := hfinal
    have hkeys : SetsKey RedisDb.keys s s' d k (some a') := by
      intro d' k'
      rw [hkeys', hkeys1]
    refine ⟨a', s', hs', ?_, fun d' => (hkeysizes' d').trans (hkeysizes1 d'), ?_, ?_, ?_⟩
    · refine h.store hkeys hexpires' ho host hore fun d' k' a1 _ ha1 => ?_
      have hne1 : a1 ≠ a' := hua'.ne ha1
      exact ⟨hne1, (hheap' a1 hne1).trans (hframe a1 (hu.ne ha1) hne1)⟩
    · rw [hkeys, if_pos ⟨rfl, rfl⟩]
    · rw [hheap' a (hua'.ne ha), hframe a hne (hua'.ne ha), hold]
    · intro d' k' hlookup
      rw [hkeys] at hlookup
      split_ifs at hlookup with hk
      · exact hua'.ne ha (some.inj hlookup).symm
      · exact h.ne_of_other ha hk hlookup rfl
  unfold RainCall.dbReplaceObject
  simp only [hold, hset, bind_eq_bind, bind_some]
  rw [← hs1]
  by_cases hminus : kvobjGetExpire old = -1
  · have httl : e.ttl = none := hst.ttl_eq_none_iff.mpr hminus
    rw [if_pos httl] at hexp
    rw [if_pos hminus]
    refine ⟨s1, rfl, fun _ => rfl, fun _ => rfl, ?_, ⟨kv, hkv, ?_, hkvre⟩, fun _ _ => rfl⟩
    · intro d' k'
      rw [hexpires1, httl, ite_self, if_pos rfl]
      exact lookup_same RedisDb.expires s hexp d' k'
    · rw [httl, ite_self]
      exact hkvst
  · have httl : e.ttl ≠ none := mt hst.ttl_eq_none_iff.mp hminus
    rw [if_neg httl] at hexp
    rw [if_neg hminus]
    cases keepTTL with
    | true =>
      -- the slot of the new object was allocated, so the time is written in place
      obtain ⟨a'', heap2, o2, hset2, -, ho2, ho₂st, ho₂re, hplace, hframe2⟩ :=
        kvobjSetExpire_spec cfg hkv hkvst hkvre (kvobjGetExpire old)
      have haa : a'' = a' := hplace (hbit (by simpa using hminus))
      subst haa
      have hheap1 : s1.heap = heap1 := rfl
      rw [if_pos rfl, hheap1, hset2]
      simp only [hexpires1, hexp]
      refine ⟨_, rfl, modifyDb_proj RedisDb.keys _ d rfl, modifyDb_proj keysizes _ d rfl, ?_,
        ⟨o2, ho2, ?_, ho₂re⟩, fun b hb => hframe2 b hb hb⟩
      · intro d' k'
        rw [if_pos trivial, if_neg httl, ← hexpires1 d']
        exact modifyDb_lookup RedisDb.expires _ d (lookup_insert_ite _ k · a'') d' k'
      · rw [if_pos trivial, ← hst.ttl_eq]
        exact ho₂st
    | false =>
      refine ⟨_, rfl, modifyDb_proj RedisDb.keys _ d rfl, modifyDb_proj keysizes _ d rfl, ?_,
        ⟨kv, hkv, hkvst, hkvre⟩, fun _ _ => rfl⟩
      intro d' k'
      rw [← hexpires1 d']
      exact modifyDb_lookup RedisDb.expires _ d (lookup_erase_ite _ k) d' k'

/-- The histogram at the end of `dbSetValue`. -/
lemma updateReplacedKeysizes_keysizes (s : Keyspace V) (d : ℕ) (oldType newType : ObjType)
    (oldLen newLen : ℕ) {t : ObjType} (ht : t.isBasic) (b : ℕ) :
    ((updateReplacedKeysizes s d oldType newType oldLen newLen).db d).keysizes t b =
      (s.db d).keysizes t b - (if t = oldType ∧ keysizesBin oldLen = b then 1 else 0) +
        (if t = newType ∧ keysizesBin newLen = b then 1 else 0) := by
  unfold updateReplacedKeysizes
  by_cases htype : oldType = newType
  · rw [if_pos htype, updateKeysizesHist_keysizes, if_pos rfl, kvsUpdateHistogram_apply _ _ _ _ ht,
      htype]
    simp
  · rw [if_neg htype, updateKeysizesHist_keysizes, if_pos rfl, kvsUpdateHistogram_apply _ _ _ _ ht,
      updateKeysizesHist_keysizes, if_pos rfl, kvsUpdateHistogram_apply _ _ _ _ ht]
    simp

lemma updateReplacedKeysizes_of_ne (s : Keyspace V) {d' : ℕ} (hd : d' ≠ d)
    (oldType newType : ObjType) (oldLen newLen : ℕ) :
    ((updateReplacedKeysizes s d oldType newType oldLen newLen).db d').keysizes =
      (s.db d').keysizes := by
  unfold updateReplacedKeysizes
  split_ifs
  · rw [updateKeysizesHist_keysizes, if_neg hd]
  · rw [updateKeysizesHist_keysizes, if_neg hd, updateKeysizesHist_keysizes, if_neg hd]

lemma Keyspace.Indexes.updateReplacedKeysizes
    (h : s.Indexes held K) (d : ℕ) (oldType newType : ObjType) (oldLen newLen : ℕ) :
    (RainCall.updateReplacedKeysizes s d oldType newType oldLen newLen).Indexes held K := by
  unfold RainCall.updateReplacedKeysizes
  split_ifs
  · exact h.updateKeysizesHist ..
  · exact (h.updateKeysizesHist ..).updateKeysizesHist ..

/-- `dbSetValue` replaces the value of an existing key and keeps or clears its TTL. The histogram
is brought up to date by the function, or by its caller if the length does not change. -/
lemma Keyspace.Holds.dbSetValue (h : s.Holds cfg none K) (he : K d k = some e)
    (hval : s.heap.lookup val = some v) (hv : v.Sharable) (hptr : v.ptr = some ptr)
    (hu : s.Unowned val) (updateKeySizes keepTTL : Bool)
    (hneg : keepTTL = false → ∀ a old, (s.db d).keys.lookup k = some a → s.heap.lookup a = some
      old → old.swappable v → -1 ≤ kvobjGetExpire old)
    (hsizes : updateKeySizes = false → KeyEntry.histClass cfg ⟨v.type, ptr, none⟩ = e.histClass
      cfg) :
    ∃ s', RainCall.dbSetValue cfg s d k val updateKeySizes keepTTL = some s' ∧
      s'.Holds cfg none (K.set d k (some ⟨v.type, ptr, if keepTTL then e.ttl else none⟩)) := by
  obtain ⟨a, old, ha, hold, hst, -⟩ := h.indexes.lookup_of_some he
  -- both branches store the entry and leave one object to be freed
  obtain ⟨kvNew, freed, s1, hbranch, hidx1, hkeysizes1, hlookup1, hu1, f, hf, hfpos⟩ :
      ∃ kvNew freed s1, dbStoreValue cfg s d k a val keepTTL = some (kvNew, freed, s1) ∧
      s1.Indexes none (K.set d k (some ⟨v.type, ptr, if keepTTL then e.ttl else none⟩)) ∧
      (∀ d', (s1.db d').keysizes = (s.db d').keysizes) ∧
      (s1.db d).keys.lookup k = some kvNew ∧ s1.Unowned freed ∧
      ∃ f, s1.heap.lookup freed = some f ∧ 0 < f.refcount := by
    unfold dbStoreValue
    simp only [hold, hval, bind_eq_bind, bind_some]
    by_cases hswap : old.swappable v
    · obtain ⟨s1, hs1, hidx1, hkeysizes1, hkeys1, hfreed⟩ :=
        h.indexes.dbSwapValue cfg ha hold he hval hptr hu hswap
          fun hkeep => hneg hkeep a old ha hold hswap
      refine ⟨a, val, s1, by rw [if_pos hswap, hs1, map_some], hidx1, hkeysizes1, ?_, ?_, hfreed⟩
      · rw [hkeys1, ha]
      · intro d' k'
        rw [hkeys1]
        exact hu d' k'
    · obtain ⟨a', s1, hs1, hidx1, hkeysizes1, hlookup1, hheap1, hu1⟩ :=
        h.indexes.dbReplaceObject cfg ha hold he hval hv hptr hu keepTTL
      exact ⟨a', a, s1, by rw [if_neg hswap, hs1, map_some], hidx1, hkeysizes1, hlookup1, hu1,
        old, hheap1, hst.refcount_pos⟩
  obtain ⟨new, e1, hnew, he1, hnewst, -⟩ := hidx1.stored hlookup1
  rw [set_self] at he1
  cases he1
  set s2 := if updateKeySizes
    then updateReplacedKeysizes s1 d old.type new.type (getObjectLength cfg old)
      (getObjectLength cfg new)
    else s1 with hs2
  have hidx2 :
      s2.Indexes none (K.set d k (some ⟨v.type, ptr, if keepTTL then e.ttl else none⟩)) := by
    cases updateKeySizes with
    | true => exact hidx1.updateReplacedKeysizes ..
    | false => exact hidx1
  have hcounts2 :
      s2.Counts cfg (K.set d k (some ⟨v.type, ptr, if keepTTL then e.ttl else none⟩)) := by
    cases updateKeySizes with
    | true =>
      refine h.counts.replace h.indexes hidx2 (fun d' hd => ?_) fun t b ht => ?_
      · rw [hs2, if_pos rfl, updateReplacedKeysizes_of_ne _ hd, hkeysizes1]
      · rw [hs2, if_pos rfl, updateReplacedKeysizes_keysizes _ _ _ _ _ _ ht, hkeysizes1,
          hst.getObjectLength, hnewst.getObjectLength, hst.type_eq, hnewst.type_eq]
        simp [histClass, he, KeyEntry.histClass_eq_iff ht]
    | false =>
      refine h.counts.of_same h.indexes hidx2 (fun d' => ?_) ?_
      · rw [hs2, if_neg (by simp), hkeysizes1]
      · rw [bind_some, histClass, he, bind_some, ← hsizes rfl]
        rfl
  -- the freed object is stored nowhere
  have hdb2 : s2.heap = s1.heap ∧ ∀ d', (s2.db d').keys = (s1.db d').keys := by
    rw [hs2]
    split_ifs
    · unfold updateReplacedKeysizes
      split_ifs
      · exact ⟨rfl, modifyDb_proj keys _ d rfl⟩
      · refine ⟨rfl, fun d' => ?_⟩
        exact (modifyDb_proj keys _ d rfl d').trans (modifyDb_proj keys _ d rfl d')
    · exact ⟨rfl, fun _ => rfl⟩
  obtain ⟨heap3, hdecr, hframe⟩ := decrRefCount_spec (hdb2.1 ▸ hf) hfpos
  refine ⟨{ s2 with heap := heap3 }, ?_, hidx2.of_heap ?_, hcounts2.of_heap heap3⟩
  · unfold RainCall.dbSetValue
    simp only [ha, hold, hbranch, hnew, bind_eq_bind, bind_some]
    rw [hdecr, bind_some]
  · intro d' k' a1 ha1
    rw [hdb2.2] at ha1
    exact hframe a1 (hu1.ne ha1)

end RainCall
