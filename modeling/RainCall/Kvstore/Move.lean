import RainCall.Kvstore.OpsSpec

/-!
# Moving dicts between two kvstores

`kvstoreMoveDict` hands a dict with all its keys to another kvstore. It keeps every counter right
but `non_empty_dicts`: `cumulativeKeyCountAdd` infers from the size of the dict whether it became
empty or non-empty, and that size does not change when the dict is moved.
-/

namespace RainCall

open Finset Option

variable {K S V : Type*} {ty : DictType K S} {kvs dst : Kvstore S V} {didx : ℕ}

/-! ### One move -/

lemma Kvstore.Counts.congr {k : Kvstore S V} {sz : ℕ → ℕ} (h : kvs.Counts sz)
    (hbits : k.numDictsBits = kvs.numDictsBits) (hkeys : k.keyCount = kvs.keyCount)
    (htree : k.dictSizes = kvs.dictSizes) : k.Counts sz := by
  have hnum : k.numDicts = kvs.numDicts := congrArg (2 ^ ·) hbits
  refine ⟨by rw [hkeys, hnum, h.keyCount], fun hne => ?_⟩
  obtain ⟨ft, hft, hftbits, hrep⟩ := h.tree (hnum ▸ hne)
  exact ⟨ft, by rw [htree, hft], by rw [hftbits, hbits], hrep⟩

/-- Replacing a dict after its slot was counted anew. -/
lemma Kvstore.Replaces.recounted {k k' : Kvstore S V} {o : Option (Dict S V)}
    (h : k.Replaces k' didx o) (hs : k.Shape ty) (hlt : didx < k.numDicts)
    (hc : k.Counts (Function.update (kvstoreDictSize k) didx (slotSize o)))
    (ho : ∀ d, o = some d → d.Stored ty) : k'.Shape ty ∧ k'.CountsKeys := by
  refine ⟨h.shape hs hlt ho, ?_⟩
  rw [CountsKeys, h.dictSize (by rwa [hs.length])]
  exact h.counts hc

/-- The counters of the callbacks after a dict has left. -/
def Kvstore.leave (k : Kvstore S V) (d : Dict S V) : Kvstore S V :=
  { k with
    bucketCount := k.bucketCount + -(dictBuckets d : ℤ)
    overheadHashtableRehashing := k.overheadHashtableRehashing - rehashingOverhead d }

/-- The counters of the callbacks after a dict has entered. -/
def Kvstore.enter (k : Kvstore S V) (d : Dict S V) : Kvstore S V :=
  { k with
    bucketCount := k.bucketCount + dictBuckets d
    overheadHashtableRehashing := k.overheadHashtableRehashing + rehashingOverhead d }

lemma leaveCallbacks_eq (d : Dict S V) (k : Kvstore S V) :
    (if dictIsRehashing d then (k.callback (.bucketChanged (-(dictBuckets d : ℤ)))).callback
        (.rehashingCompleted (dicthtSize d.ht0.sizeExp))
      else k.callback (.bucketChanged (-(dictBuckets d : ℤ)))) = k.leave d := by
  unfold Kvstore.leave
  split_ifs with hr
  · rw [rehashingOverhead_of_rehashing hr]
    rfl
  · rw [rehashingOverhead_of_not hr, Nat.cast_zero, sub_zero]
    rfl

lemma enterCallbacks_eq (d : Dict S V) (k : Kvstore S V) :
    (if dictIsRehashing d then (k.callback (.bucketChanged (dictBuckets d))).callback
        (.rehashingStarted (dicthtSize d.ht0.sizeExp))
      else k.callback (.bucketChanged (dictBuckets d))) = k.enter d := by
  unfold Kvstore.enter
  split_ifs with hr
  · rw [rehashingOverhead_of_rehashing hr]
    rfl
  · rw [rehashingOverhead_of_not hr, Nat.cast_zero, add_zero]
    rfl

lemma moveSource_spec (hs : kvs.Shape ty) (hc : kvs.CountsKeys)
    (hlt : didx < kvs.numDicts) {d : Dict S V} (hd : kvstoreGetDict kvs didx = some d) :
    ∃ k, cumulativeKeyCountAdd { kvs with allocatedDicts := kvs.allocatedDicts - 1 } didx
        (-(dictSize d : ℤ)) = some k ∧
      ∀ k', k' = (k.leave d).setDict didx none →
        k'.Shape ty ∧ k'.CountsKeys ∧ k'.numDictsBits = kvs.numDictsBits := by
  have hsize : kvstoreDictSize kvs didx = dictSize d := by
    rw [kvstoreDictSize, hd, map_some, getD_some]
  have hc0 : Kvstore.Counts { kvs with allocatedDicts := kvs.allocatedDicts - 1 }
      (kvstoreDictSize kvs) := hc.congr rfl rfl rfl
  obtain ⟨k, hk, hcounts, hrec, -⟩ := cumulativeKeyCountAdd_spec hc0 hlt hd 0
  rw [hsize, Nat.cast_zero, zero_sub] at hk
  refine ⟨k, hk, ?_⟩
  rintro k' rfl
  -- the source with its slot counted anew, before the dict is taken out
  let k0 : Kvstore S V := { kvs with
    keyCount := k.keyCount, nonEmptyDicts := k.nonEmptyDicts, dictSizes := k.dictSizes }
  have hk0 : kvs.Recounts k0 := ⟨rfl, rfl, rfl, rfl, rfl, rfl, rfl⟩
  have hd0 : kvstoreGetDict k0 didx = some d := hd
  have hrep : k0.Replaces ((k.leave d).setDict didx none) didx none :=
    { allocateDictsOnDemand := hrec.allocateDictsOnDemand
      freeEmptyDicts := hrec.freeEmptyDicts
      numDictsBits := hrec.numDictsBits
      dicts := congrArg (List.set · didx none) hrec.dicts
      keyCount := rfl
      nonEmptyDicts := rfl
      dictSizes := rfl
      allocated := hrec.allocated.trans (by rw [hd0]; rfl)
      buckets := (congrArg (· + -(dictBuckets d : ℤ)) hrec.buckets).trans (by
        simp [hd0, k0, bucketsOf])
      overhead := (congrArg (· - (rehashingOverhead d : ℤ)) hrec.overhead).trans (by
        simp [hd0, k0, overheadOf, sub_eq_add_neg]) }
  obtain ⟨hshape, hcount⟩ := hrep.recounted (hk0.shape hs) hlt
    (hcounts.congr hrec.numDictsBits.symm rfl rfl) (fun _ h => absurd h (by simp))
  exact ⟨hshape, hcount, hrec.numDictsBits⟩

/-- The destination of a move. -/
lemma moveDestination_spec (hs : dst.Shape ty) (hc : dst.CountsKeys)
    (hlt : didx < dst.numDicts) (hnull : kvstoreGetDict dst didx = none) {d : Dict S V}
    (hd : d.Stored ty) :
    ∃ k, cumulativeKeyCountAdd
        { dst.setDict didx (some d) with allocatedDicts := dst.allocatedDicts + 1 } didx
          (dictSize d) =
          some k ∧
      ∀ k', k' = k.enter d →
        k'.Shape ty ∧ k'.CountsKeys ∧ k'.numDictsBits = dst.numDictsBits := by
  have hsize : kvstoreDictSize dst didx = 0 := by rw [kvstoreDictSize, hnull]; rfl
  have hc0 : Kvstore.Counts
      { dst.setDict didx (some d) with allocatedDicts := dst.allocatedDicts + 1 }
      (kvstoreDictSize dst) := hc.congr rfl rfl rfl
  have hget : kvstoreGetDict { dst.setDict didx (some d) with
      allocatedDicts := dst.allocatedDicts + 1 } didx = some d := by
    have := congrFun (kvstoreGetDict_setDict (some d) (by rwa [hs.length])) didx
    rw [Function.update_self] at this
    exact this
  obtain ⟨k, hk, hcounts, hrec, -⟩ := cumulativeKeyCountAdd_spec hc0 hlt hget (dictSize d)
  rw [hsize] at hk
  refine ⟨k, hk, ?_⟩
  rintro k' rfl
  let k0 : Kvstore S V := { dst with
    keyCount := k.keyCount, nonEmptyDicts := k.nonEmptyDicts, dictSizes := k.dictSizes }
  have hk0 : dst.Recounts k0 := ⟨rfl, rfl, rfl, rfl, rfl, rfl, rfl⟩
  have hnull0 : kvstoreGetDict k0 didx = none := hnull
  have hrep : k0.Replaces (k.enter d) didx (some d) :=
    { allocateDictsOnDemand := hrec.allocateDictsOnDemand
      freeEmptyDicts := hrec.freeEmptyDicts
      numDictsBits := hrec.numDictsBits
      dicts := hrec.dicts
      keyCount := rfl
      nonEmptyDicts := rfl
      dictSizes := rfl
      allocated := hrec.allocated.trans (by rw [hnull0]; rfl)
      buckets := (congrArg (· + (dictBuckets d : ℤ)) hrec.buckets).trans (by
        simp [hnull0, k0, bucketsOf, Kvstore.setDict])
      overhead := (congrArg (· + (rehashingOverhead d : ℤ)) hrec.overhead).trans (by
        simp [hnull0, k0, overheadOf, Kvstore.setDict]) }
  obtain ⟨hshape, hcount⟩ := hrep.recounted (hk0.shape hs) hlt
    (hcounts.congr hrec.numDictsBits.symm rfl rfl) (by rintro _ ⟨rfl⟩; exact hd)
  exact ⟨hshape, hcount, hrec.numDictsBits⟩

/-- `kvstoreMoveDict` keeps the counters right, and does nothing when there is no dict to move. -/
lemma kvstoreMoveDict_spec (hs : kvs.Shape ty) (hc : kvs.CountsKeys)
    (hs' : dst.Shape ty) (hc' : dst.CountsKeys)
    (hbits : dst.numDictsBits = kvs.numDictsBits) (hlt : didx < kvs.numDicts)
    (hnull : kvstoreGetDict dst didx = none) :
    ∃ kvs1 dst1, kvstoreMoveDict kvs dst didx = some (kvs1, dst1) ∧
      (kvs1.Shape ty ∧ kvs1.CountsKeys ∧
        kvs1.numDictsBits = kvs.numDictsBits) ∧
      (dst1.Shape ty ∧ dst1.CountsKeys ∧
        dst1.numDictsBits = dst.numDictsBits) ∧
      (kvstoreGetDict kvs didx = none → kvs1 = kvs ∧ dst1 = dst) := by
  have hnum : kvs.numDicts = dst.numDicts := (congrArg (2 ^ ·) hbits).symm
  have hok : ¬ (kvs.numDicts ≤ didx ∨ kvs.numDicts ≠ dst.numDicts ∨
      (kvstoreGetDict dst didx).isSome) := by
    rintro (h | h | h)
    · omega
    · exact h hnum
    · rw [hnull] at h
      exact Bool.false_ne_true h
  rw [kvstoreMoveDict, if_neg hok]
  cases hd : kvstoreGetDict kvs didx with
  | none => exact ⟨kvs, dst, rfl, ⟨hs, hc, rfl⟩, ⟨hs', hc', rfl⟩, fun _ => ⟨rfl, rfl⟩⟩
  | some d =>
    obtain ⟨k, hk, hsource⟩ := moveSource_spec hs hc hlt hd
    obtain ⟨k', hk', hdest⟩ := moveDestination_spec hs' hc' (hnum ▸ hlt) hnull (hs.stored didx d hd)
    dsimp only
    rw [hk, bind_some, hk', map_some, leaveCallbacks_eq, enterCallbacks_eq]
    refine ⟨_, _, rfl, ?_, hdest _ rfl, fun h => absurd h (by simp)⟩
    obtain ⟨hshape, hcount, hkbits⟩ := hsource _ rfl
    split_ifs
    · exact ⟨hshape, hcount, hkbits⟩
    · have hcreate := (createDictIfNeeded_spec hshape hcount
        (show didx < 2 ^ _ by rw [hkbits]; exact hlt)).1
      exact ⟨hcreate.shape, hcreate.counts, hcreate.numDictsBits.trans hkbits⟩

/-! ### Runs of two kvstores -/

/-- An operation on two kvstores. -/
inductive KvstorePairOp (K S V : Type*)
  | left (env : KvstoreEnv) (op : KvstoreOp K S V)
  | right (env : KvstoreEnv) (op : KvstoreOp K S V)
  /-- `kvstoreMoveDict` from the left to the right one. -/
  | moveRight (didx : ℕ)
  | moveLeft (didx : ℕ)

/-- Execute one operation. -/
def kvstorePairStep [DecidableEq K] (ty : DictType K S) (s : Kvstore S V × Kvstore S V) :
    KvstorePairOp K S V → Option (Kvstore S V × Kvstore S V)
  | .left env op => (kvstoreStep ty s.1 (env, op)).map (·, s.2)
  | .right env op => (kvstoreStep ty s.2 (env, op)).map (s.1, ·)
  | .moveRight didx => kvstoreMoveDict s.1 s.2 didx
  | .moveLeft didx => (kvstoreMoveDict s.2 s.1 didx).map Prod.swap

/-- The caller's part: a dict index is one of the kvstore, and a dict is moved into an empty slot.
-/
def KvstorePairOp.Allowed (s : Kvstore S V × Kvstore S V) : KvstorePairOp K S V → Prop
  | .left _ op => op.InRange s.1.numDicts
  | .right _ op => op.InRange s.2.numDicts
  | .moveRight didx => didx < s.1.numDicts ∧ kvstoreGetDict s.2 didx = none
  | .moveLeft didx => didx < s.2.numDicts ∧ kvstoreGetDict s.1 didx = none

instance (op : KvstoreOp K S V) (n : ℕ) : Decidable (op.InRange n) :=
  inferInstanceAs (Decidable (∀ didx, didx ∈ op.didx? → didx < n))

instance (s : Kvstore S V × Kvstore S V) : ∀ op : KvstorePairOp K S V, Decidable (op.Allowed s)
  | .left _ op => inferInstanceAs (Decidable (op.InRange s.1.numDicts))
  | .right _ op => inferInstanceAs (Decidable (op.InRange s.2.numDicts))
  | .moveRight didx =>
    inferInstanceAs (Decidable (didx < s.1.numDicts ∧ kvstoreGetDict s.2 didx = none))
  | .moveLeft didx =>
    inferInstanceAs (Decidable (didx < s.2.numDicts ∧ kvstoreGetDict s.1 didx = none))

/-- No dict is moved: the slot to be moved is empty. -/
def KvstorePairOp.MovesNothing (s : Kvstore S V × Kvstore S V) : KvstorePairOp K S V → Prop
  | .left _ _ | .right _ _ => True
  | .moveRight didx => kvstoreGetDict s.1 didx = none
  | .moveLeft didx => kvstoreGetDict s.2 didx = none

/-- The counters of a kvstore other than `non_empty_dicts` are right: the number of keys, the entry
of each dict in the Fenwick tree, the number of dicts, of buckets, and of buckets being rehashed. -/
structure Kvstore.Counted (kvs : Kvstore S V) : Prop where
  keyCount : kvs.keyCount = ∑ i ∈ Finset.range kvs.numDicts, (kvstoreDictSize kvs i : ℤ)
  tree : kvs.numDicts ≠ 1 → ∃ ft, kvs.dictSizes = some ft ∧ ∀ i < kvs.numDicts,
    (fwTreePrefixSum ft i : ℤ) - fwTreePrefixSum ft ((i : ℤ) - 1) = kvstoreDictSize kvs i
  allocatedDicts : kvs.allocatedDicts = kvs.total allocatedOf
  bucketCount : kvs.bucketCount = kvs.total bucketsOf
  overhead : kvs.overheadHashtableRehashing = kvs.total overheadOf

lemma FenwickTree.Represents.entry {ft : FenwickTree} {a : ℕ → ℕ} (h : ft.Represents a) {i : ℕ}
    (hi : i < ft.size) : (fwTreePrefixSum ft i : ℤ) - fwTreePrefixSum ft ((i : ℤ) - 1) = a i := by
  cases i with
  | zero =>
    rw [h.prefixSum hi]
    rfl
  | succ i =>
    rw [Nat.cast_succ, add_sub_cancel_right, ← Nat.cast_succ, h.prefixSum hi,
      h.prefixSum (Nat.lt_of_succ_lt hi), sum_range_succ _ (i + 1)]
    omega

lemma Kvstore.Counts.counted (hc : kvs.CountsKeys) (hs : kvs.Shape ty) :
    kvs.Counted := by
  refine ⟨hc.keyCount, fun hne => ?_, hs.allocated, hs.buckets, hs.overhead⟩
  obtain ⟨ft, hft, hbits, hrep⟩ := hc.tree hne
  refine ⟨ft, hft, fun i hi => hrep.entry ?_⟩
  rw [FenwickTree.size, hbits]
  exact hi

/-- A new kvstore. -/
lemma kvstoreCreate_spec {bits : ℕ} (hbits : bits ≤ 16) {onDemand free : Bool} {kvs : Kvstore S V}
    (hkvs : kvstoreCreate bits onDemand free = kvs) :
    kvs.Shape ty ∧ kvs.CountsKeys ∧ kvs.NonEmptyCounts (kvstoreDictSize kvs) := by
  have hnum : kvs.numDicts = 2 ^ bits := by rw [← hkvs]; rfl
  have hslot : ∀ i ∈ range kvs.numDicts,
      kvstoreGetDict kvs i = if onDemand then none else some dictCreate := by
    intro i hi
    rw [hnum, mem_range] at hi
    rw [kvstoreGetDict, ← hkvs, kvstoreCreate,
      List.getD_eq_getElem _ _ (by rw [List.length_replicate]; exact hi), List.getElem_replicate]
  have hsize : ∀ i ∈ range kvs.numDicts, kvstoreDictSize kvs i = 0 := by
    intro i hi
    rw [kvstoreDictSize, hslot i hi]
    cases onDemand <;> rfl
  have htotal : ∀ f : Option (Dict S V) → ℤ,
      kvs.total f = 2 ^ bits * f (if onDemand then none else some dictCreate) := by
    intro f
    rw [Kvstore.total, sum_congr rfl fun i hi => by rw [hslot i hi], sum_const,
      card_range, hnum, nsmul_eq_mul, Nat.cast_pow, Nat.cast_ofNat]
  refine ⟨⟨by rw [← hkvs]; exact hbits, ?_, ?_, ?_, ?_, ?_⟩, ⟨?_, ?_⟩, ?_⟩
  · rw [hnum, ← hkvs]
    exact List.length_replicate
  · intro i d hd
    have hi : i ∈ range kvs.numDicts := by
      rw [mem_range]
      by_contra hge
      rw [kvstoreGetDict, List.getD_eq_default _ _ (by
        rw [← hkvs, kvstoreCreate, List.length_replicate]; omega)] at hd
      exact absurd hd (by simp)
    rw [hslot i hi] at hd
    cases onDemand with
    | true => exact absurd hd (by simp)
    | false =>
      obtain rfl := some.inj hd
      exact ⟨Dict.wf_dictCreate, le_rfl, rfl⟩
  · rw [htotal, ← hkvs]
    cases onDemand <;> simp [kvstoreCreate, allocatedOf]
  · rw [htotal, ← hkvs]
    cases onDemand <;> exact (mul_zero _).symm
  · rw [htotal, ← hkvs]
    cases onDemand <;> exact (mul_zero _).symm
  · rw [sum_eq_zero fun i hi => by rw [hsize i hi]; rfl, ← hkvs]
    rfl
  · intro hne
    rw [hnum] at hne
    refine ⟨fwTreeCreate bits, ?_, by rw [← hkvs]; rfl, ?_⟩
    · rw [← hkvs]
      exact if_pos (lt_of_le_of_ne Nat.one_le_two_pow (Ne.symm hne))
    · refine (FenwickTree.represents_fwTreeCreate (by omega)).congr fun j hj => (hsize j ?_).symm
      rw [mem_range, hnum]
      exact hj
  · rw [Kvstore.NonEmptyCounts, sum_eq_zero fun i hi => by rw [if_pos (hsize i hi)], ← hkvs]
    rfl

/-- The invariant of a run: both kvstores are right, and `non_empty_dicts` as well if `exact` holds.
-/
structure KvstorePairInv (ty : DictType K S) (bits : ℕ) (exact : Prop)
    (s : Kvstore S V × Kvstore S V) : Prop where
  left : s.1.Shape ty ∧ s.1.CountsKeys
  right : s.2.Shape ty ∧ s.2.CountsKeys
  leftBits : s.1.numDictsBits = bits
  rightBits : s.2.numDictsBits = bits
  nonEmpty : exact → s.1.NonEmptyCounts (kvstoreDictSize s.1) ∧
    s.2.NonEmptyCounts (kvstoreDictSize s.2)

/-- One step of two kvstores. -/
lemma kvstorePairStep_spec [DecidableEq K] {bits : ℕ} {exact : Prop} {s : Kvstore S V × Kvstore S V}
    {op : KvstorePairOp K S V} (hop : op.Allowed s) (hmove : exact → op.MovesNothing s)
    (h : KvstorePairInv ty bits exact s) :
    ∃ s', kvstorePairStep ty s op = some s' ∧ KvstorePairInv ty bits exact s' := by
  obtain ⟨s1, s2⟩ := s
  obtain ⟨⟨hs1, hc1⟩, ⟨hs2, hc2⟩, hb1, hb2, hne⟩ := h
  cases op with
  | left env op =>
    obtain ⟨k, hk, hkeeps, -⟩ := kvstoreStep_spec hs1 hc1 env hop
    refine ⟨(k, s2), by rw [kvstorePairStep, hk, map_some], ⟨hkeeps.shape, hkeeps.counts⟩,
      ⟨hs2, hc2⟩, hkeeps.numDictsBits.trans hb1, hb2, fun he => ?_⟩
    exact ⟨hkeeps.nonEmpty (hne he).1, (hne he).2⟩
  | right env op =>
    obtain ⟨k, hk, hkeeps, -⟩ := kvstoreStep_spec hs2 hc2 env hop
    refine ⟨(s1, k), by rw [kvstorePairStep, hk, map_some], ⟨hs1, hc1⟩,
      ⟨hkeeps.shape, hkeeps.counts⟩, hb1, hkeeps.numDictsBits.trans hb2, fun he => ?_⟩
    exact ⟨(hne he).1, hkeeps.nonEmpty (hne he).2⟩
  | moveRight didx =>
    obtain ⟨k1, k2, hk, ⟨hs1', hc1', hb1'⟩, ⟨hs2', hc2', hb2'⟩, hsame⟩ :=
      kvstoreMoveDict_spec hs1 hc1 hs2 hc2 (hb2.trans hb1.symm) hop.1 hop.2
    refine ⟨(k1, k2), hk, ⟨hs1', hc1'⟩, ⟨hs2', hc2'⟩, hb1'.trans hb1, hb2'.trans hb2, fun he => ?_⟩
    obtain ⟨rfl, rfl⟩ := hsame (hmove he)
    exact hne he
  | moveLeft didx =>
    obtain ⟨k2, k1, hk, ⟨hs2', hc2', hb2'⟩, ⟨hs1', hc1', hb1'⟩, hsame⟩ :=
      kvstoreMoveDict_spec hs2 hc2 hs1 hc1 (hb1.trans hb2.symm) hop.1 hop.2
    refine ⟨(k1, k2), by rw [kvstorePairStep, hk]; rfl, ⟨hs1', hc1'⟩, ⟨hs2', hc2'⟩,
      hb1'.trans hb1, hb2'.trans hb2, fun he => ?_⟩
    obtain ⟨rfl, rfl⟩ := hsame (hmove he)
    exact hne he

/-- Two new kvstores with the same number of dicts. -/
def kvstorePairCreate (bits : ℕ) (onDemand free onDemand' free' : Bool) :
    Kvstore S V × Kvstore S V :=
  (kvstoreCreate bits onDemand free, kvstoreCreate bits onDemand' free')

/-- Two new kvstores. -/
lemma kvstorePairInv_create {bits : ℕ} (hbits : bits ≤ 16) (onDemand free onDemand' free' : Bool)
    (exact : Prop) :
    KvstorePairInv ty bits exact
      (kvstorePairCreate bits onDemand free onDemand' free' : Kvstore S V × Kvstore S V) := by
  obtain ⟨hs1, hc1, hn1⟩ := kvstoreCreate_spec hbits rfl
  obtain ⟨hs2, hc2, hn2⟩ := kvstoreCreate_spec hbits rfl
  exact ⟨⟨hs1, hc1⟩, ⟨hs2, hc2⟩, rfl, rfl, fun _ => ⟨hn1, hn2⟩⟩

/-- **The counters of two kvstores.**  In every run of operations on two kvstores with `2 ^ bits`
dicts and of moves of dicts between them, no assertion fails and the key count, the entries of the
Fenwick tree, the number of dicts, of buckets and of buckets being rehashed are right in both. The
number of non-empty dicts is right in both as long as no dict has been moved. -/
theorem kvstore_counters [DecidableEq K] (ty : DictType K S) {bits : ℕ} (hbits : bits ≤ 16)
    (onDemand free onDemand' free' : Bool) (ops : List (KvstorePairOp K S V))
    (hallowed : RunSatisfies (kvstorePairStep ty) (fun s op => op.Allowed s)
      (kvstorePairCreate bits onDemand free onDemand' free') ops) :
    ∃ s, runSteps (kvstorePairStep ty) (kvstorePairCreate bits onDemand free onDemand' free') ops =
        some s ∧ s.1.Counted ∧ s.2.Counted ∧
      (RunSatisfies (kvstorePairStep ty) (fun s op => op.MovesNothing s)
          (kvstorePairCreate bits onDemand free onDemand' free') ops →
        s.1.NonEmptyCounts (kvstoreDictSize s.1) ∧ s.2.NonEmptyCounts (kvstoreDictSize s.2)) := by
  have hinit : ∀ exact, KvstorePairInv ty bits exact
      (kvstorePairCreate bits onDemand free onDemand' free' : Kvstore S V × Kvstore S V) :=
    kvstorePairInv_create hbits onDemand free onDemand' free'
  obtain ⟨s, hs, hinv⟩ := hallowed.invariant (KvstorePairInv ty bits False)
    (fun s op hop h => kvstorePairStep_spec hop False.elim h) (hinit False)
  refine ⟨s, hs, hinv.left.2.counted hinv.left.1, hinv.right.2.counted hinv.right.1,
    fun hmoves => ?_⟩
  obtain ⟨s', hs', hinv'⟩ := (hallowed.and hmoves).invariant (KvstorePairInv ty bits True)
    (fun s op hop h => kvstorePairStep_spec hop.1 (fun _ => hop.2) h) (hinit True)
  obtain rfl : s = s' := Option.some.inj (hs.symm.trans hs')
  exact hinv'.nonEmpty trivial

/-- A key is added to the left kvstore and an empty slot is moved. -/
theorem kvstore_counters_add_move :
    ∃ s : Kvstore ℕ ℕ × Kvstore ℕ ℕ,
      runSteps (kvstorePairStep natDictType) (kvstorePairCreate 1 true false true true)
        [.left ⟨.enable, fun _ => true⟩ (.addRaw 0 ⟨5, 50⟩), .moveRight 1] = some s ∧
      s.1.Counted ∧ s.2.Counted ∧ s.1.NonEmptyCounts (kvstoreDictSize s.1) := by
  have hstep : ∀ P : Kvstore ℕ ℕ × Kvstore ℕ ℕ → KvstorePairOp ℕ ℕ ℕ → Prop,
      P (kvstorePairCreate 1 true false true true)
        (.left ⟨.enable, fun _ => true⟩ (.addRaw 0 ⟨5, 50⟩)) →
      (∀ s, kvstoreGetDict s.1 1 = none → kvstoreGetDict s.2 1 = none → 1 < s.1.numDicts →
        P s (.moveRight 1)) →
      RunSatisfies (kvstorePairStep natDictType) P (kvstorePairCreate 1 true false true true)
        [.left ⟨.enable, fun _ => true⟩ (.addRaw 0 ⟨5, 50⟩), .moveRight 1] := by
    intro P hadd hmove
    refine ⟨hadd, fun s hs => ⟨?_, fun _ _ => trivial⟩⟩
    obtain rfl := Option.some.inj hs
    exact hmove _ rfl rfl (by decide)
  obtain ⟨s, hs, h1, h2, hne⟩ := kvstore_counters natDictType (by decide) true false true true _
    (hstep (fun s op => op.Allowed s) (by rintro didx ⟨rfl⟩; decide) fun s _ h2 hlt => ⟨hlt, h2⟩)
  exact ⟨s, hs, h1, h2, (hne (hstep (fun s op => op.MovesNothing s) trivial fun s h1 _ _ => h1)).1⟩

/-- A dict with one key is moved: the source counts a non-empty dict and has none. -/
theorem kvstore_moved_dict_counted :
    ∃ s : Kvstore ℕ ℕ × Kvstore ℕ ℕ,
      runSteps (kvstorePairStep natDictType) (kvstorePairCreate 1 true false true true)
        [.left ⟨.enable, fun _ => true⟩ (.addRaw 0 ⟨5, 50⟩), .moveRight 0] = some s ∧
      s.1.nonEmptyDicts = 1 ∧ kvstoreDictSize s.1 0 = 0 ∧ kvstoreDictSize s.1 1 = 0 :=
  ⟨_, rfl, rfl, rfl, rfl⟩

end RainCall
