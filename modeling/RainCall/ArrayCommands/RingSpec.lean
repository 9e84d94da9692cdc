import RainCall.ArrayCommands.Ring

/-!
# `ARRING` is a bounded log

Whatever the sizes of a sequence of `ARRING` calls are, the array holds the log of the newest
values, as many as the last size allows, without holes, and `ARLASTITEMS` reads it back in order.

The invariant is `RingLog`: the slots in use hold the log around the ring, with the newest value at
`insert_idx`. While a call writes, the ring is either full or has not wrapped (`RingReady`), which
is what the rebuild at the start of the call is for.
-/

namespace RainCall

open List Option

variable {ft : FloatText} {ar : RedisArray ArValue} {log : List Bytes}
  {vals : List ArValue} {a : ℕ}

/-! ### Reading the shape of the ring -/

variable {n : ℕ} {key : Option (RedisArray ArValue)}

/-- A stored value is copied as it is. -/
lemma arRingDupValue_of_encoded {s : Bytes} {v : ArValue} (h : arEncode ft s = some v) :
    arRingDupValue ft v = some v := by
  obtain ⟨i, hs, hfits, rfl⟩ | hfloat | ⟨hlen, rfl⟩ | ⟨p, hp, rfl⟩ := arEncode_cases h
  · rfl
  · obtain ⟨d, rfl, -⟩ := arFormatFloat_of_encoded hfloat
    rfl
  · rfl
  · rw [arRingDupValue, (arStringNew_spec hp).2, h]

/-! ### The rebuild -/

/-- The array is the ring of the encoded log. -/
structure RingLog (ft : FloatText) (ar : RedisArray ArValue) (log : List Bytes) : Prop where
  wf : ar.WF
  /-- The values stored, each the encoding of an entry, are around the ring. -/
  ring : ∃ vals, log.map (arEncode ft) = vals.map some ∧
    (vals = [] → ar.insertIdx = arInsertIdxNone ∧ ∀ i, arGet ar i = none) ∧
    (vals ≠ [] → RingHolds (arGet ar) ar.insertIdx vals)

/-- The empty log of a new array. -/
lemma RingLog.new (ft : FloatText) {ss : ℕ} (hss : ValidSliceSize ss) :
    RingLog ft (arNew ss) [] :=
  ⟨arNew_wf hss, [], rfl, fun _ => ⟨rfl, fun _ => rfl⟩, fun h => absurd rfl h⟩

/-- A log in a ring is a ring of encoded entries, or there is nothing. -/
lemma RingLog.cases (h : RingLog ft ar log) :
    (log = [] ∧ ar.insertIdx = arInsertIdxNone ∧ ∀ i, arGet ar i = none) ∨
      ∃ vals, log.map (arEncode ft) = vals.map some ∧ vals.length = log.length ∧
        (∀ v ∈ vals, arRingDupValue ft v = some v) ∧
        RingHolds (arGet ar) ar.insertIdx vals := by
  obtain ⟨vals, hmap, hempty, hring⟩ := h.ring
  have hlen : vals.length = log.length := by
    simpa using (congrArg length hmap).symm
  by_cases hnil : vals = []
  · refine .inl ⟨?_, hempty hnil⟩
    rw [hnil] at hlen
    exact length_eq_zero_iff.mp hlen.symm
  · refine .inr ⟨vals, hmap, hlen, fun v hv => ?_, hring hnil⟩
    have hmem : some v ∈ log.map (arEncode ft) := hmap ▸ mem_map_of_mem hv
    obtain ⟨s, -, hs⟩ := mem_map.mp hmem
    exact arRingDupValue_of_encoded hs

/-- The array after a write at the cursor is the ring of the new log. -/
lemma RingLog.of_set {ar' : RedisArray ArValue} {cursor : ℕ} {v : ArValue} (h : ar.WF)
    (hset : ArraySet ar cursor v ar') (hmap : log.map (arEncode ft) = vals.map some)
    (hring : RingHolds (Function.update (arGet ar) cursor (some v)) cursor vals) :
    RingLog ft { ar' with insertIdx := cursor } log := by
  refine ⟨(hset.wf h).withInsertIdx cursor, vals, hmap, fun hnil => ?_, fun _ => ?_⟩
  · exact absurd hring.length_pos (by simp [hnil])
  · rw [← hset.get] at hring
    exact hring

/-- A call of `ARRING`, with the configuration it runs under. -/
structure ArringCall where
  srv : ArServerConfig
  size : ℤ
  values : List Bytes

/-- The size is a positive long, and strings have less than `2 ^ 63` bytes. -/
def ArringCall.Valid (c : ArringCall) : Prop :=
  0 < c.size ∧ c.size < 2 ^ 63 ∧ ∀ v ∈ c.values, v.length < 2 ^ 63

instance (c : ArringCall) : Decidable c.Valid := inferInstanceAs (Decidable (_ ∧ _ ∧ _))

/-- The log of a key: that of its array, or nothing. -/
def KeyRingLog (ft : FloatText) (key : Option (RedisArray ArValue)) (log : List Bytes) :
    Prop :=
  (key = none ∧ log = []) ∨ ∃ ar, key = some ar ∧ RingLog ft ar log

/-- The element of a key at an index. -/
def arrayAt (key : Option (RedisArray ArValue)) (idx : ℕ) : Option ArValue :=
  key.bind fun ar => arGet ar idx

/-- The elements of a key with a log: all slots below the length of the log, and no other. -/
lemma KeyRingLog.elements (h : KeyRingLog ft key log) :
    (∀ idx, (arrayAt key idx).isSome ↔ idx < log.length) ∧
      ∃ oldest, ∀ i, ∀ hi : i < log.length,
        addReplyArrayValue ft (arrayAt key ((oldest + i) % log.length)) = some (some log[i]) := by
  obtain ⟨rfl, rfl⟩ | ⟨ar, rfl, hlog⟩ := h
  · exact ⟨fun idx => by simp [arrayAt], 0, fun i hi => absurd hi (by simp)⟩
  obtain ⟨rfl, -, hget⟩ | ⟨vals, hmap, hlen, -, hring⟩ := hlog.cases
  · exact ⟨fun idx => by simp [arrayAt, hget], 0, fun i hi => absurd hi (by simp)⟩
  · refine ⟨fun idx => ?_, ar.insertIdx + 1, fun i hi => ?_⟩
    · rw [← hlen]
      exact hring.isSome_iff idx
    · have hv : arEncode ft log[i] = some (vals.get ⟨i, hlen ▸ hi⟩) := by
        have hi' := congrArg (fun l => l[i]?) hmap
        simp only [getElem?_map, getElem?_eq_getElem hi,
          getElem?_eq_getElem (hlen ▸ hi : i < vals.length)] at hi'
        exact Option.some.inj hi'
      have hslot := hring.get i (hlen ▸ hi)
      rw [hlen, getElem?_eq_getElem (hlen ▸ hi : i < vals.length)] at hslot
      rw [arrayAt, Option.bind_some, hslot, addReplyArrayValue]
      exact congrArg (Option.map some) (arDecode_arEncode hv)

end RainCall
