import RainCall.Kvstore.Basic

/-!
# The counters of a kvstore

Every operation changes the dict of one slot. `Kvstore.Replaces` says how such a change is seen by
the counters the callbacks maintain, and `cumulativeKeyCountAdd_spec` what it does to the key
counters. `Kvstore.Shape` is the invariant of the first kind of counters, `Kvstore.Counts` that of
the second kind, stated for given sizes because a dict changes before its keys are counted.
-/

namespace RainCall

open DictCallback Finset Function Kvstore Option

variable {K S V : Type*} {ty : DictType K S} {kvs kvs' : Kvstore S V} {didx : ℕ}

/-! ### Sums over the slots -/

/-- A slot with a dict counts as one. -/
def allocatedOf (o : Option (Dict S V)) : ℤ := if o.isSome then 1 else 0

/-- The buckets of a slot. -/
def bucketsOf (o : Option (Dict S V)) : ℤ := (o.map fun d => (dictBuckets d : ℤ)).getD 0

def overheadOf (o : Option (Dict S V)) : ℤ := (o.map fun d => (rehashingOverhead d : ℤ)).getD 0

/-- The sum of a number over all slots. -/
def Kvstore.total (kvs : Kvstore S V) (f : Option (Dict S V) → ℤ) : ℤ :=
  ∑ i ∈ Finset.range kvs.numDicts, f (kvstoreGetDict kvs i)

/-- A dict as it is stored: well formed, not closed for resizing, and with no callback pending. -/
structure Dict.Stored (ty : DictType K S) (d : Dict S V) : Prop where
  wf : d.WF ty
  pauseAutoResize : d.pauseAutoResize ≤ 0
  trace : d.trace = []

/-- The invariant of the array of dicts and of the counters the callbacks maintain. -/
structure Kvstore.Shape (ty : DictType K S) (kvs : Kvstore S V) : Prop where
  bits : kvs.numDictsBits ≤ 16
  length : kvs.dicts.length = kvs.numDicts
  stored : ∀ i d, kvstoreGetDict kvs i = some d → d.Stored ty
  allocated : kvs.allocatedDicts = kvs.total allocatedOf
  buckets : kvs.bucketCount = kvs.total bucketsOf
  overhead : kvs.overheadHashtableRehashing = kvs.total overheadOf

/-- The key counters, if slot `i` is taken to have `sz i` keys. -/
structure Kvstore.Counts (kvs : Kvstore S V) (sz : ℕ → ℕ) : Prop where
  keyCount : kvs.keyCount = ∑ i ∈ Finset.range kvs.numDicts, (sz i : ℤ)
  /-- There is a tree unless there is only one dict. -/
  tree : kvs.numDicts ≠ 1 →
    ∃ ft, kvs.dictSizes = some ft ∧ ft.sizeBits = kvs.numDictsBits ∧ ft.Represents sz

/-- The key counters count the keys of the dicts. -/
abbrev Kvstore.CountsKeys (kvs : Kvstore S V) : Prop := kvs.Counts (kvstoreDictSize kvs)

/-- The number of slots with a key, if slot `i` is taken to have `sz i` keys. -/
def Kvstore.NonEmptyCounts (kvs : Kvstore S V) (sz : ℕ → ℕ) : Prop :=
  kvs.nonEmptyDicts = ∑ i ∈ Finset.range kvs.numDicts, if sz i = 0 then 0 else 1

/-! ### Replacing one dict -/

lemma kvstoreGetDict_setDict (o : Option (Dict S V)) (h : didx < kvs.dicts.length) :
    kvstoreGetDict (kvs.setDict didx o) = update (kvstoreGetDict kvs) didx o := by
  funext i
  rw [kvstoreGetDict, setDict, update_apply]
  split_ifs with hi
  · rw [hi, List.getD_eq_getElem _ _ (by rwa [List.length_set]), List.getElem_set_self]
  · rw [List.getD_eq_getElem?_getD, List.getElem?_set_ne (Ne.symm hi), kvstoreGetDict,
      List.getD_eq_getElem?_getD]

/-- A sum changes by the difference at one position. -/
lemma sum_range_update {β : Type*} (f : β → ℤ) (g : ℕ → β) {n i : ℕ} (hi : i < n) (x : β) :
    ∑ j ∈ range n, f (update g i x j) =
      ∑ j ∈ range n, f (g j) + (f x - f (g i)) := by
  have hmem : i ∈ range n := mem_range.mpr hi
  have hupd : ∀ j, f (update g i x j) = update (fun j => f (g j)) i (f x) j := by
    intro j
    by_cases hj : j = i
    · rw [hj, update_self, update_self]
    · rw [update_of_ne hj, update_of_ne hj]
  have hsum := sum_update_of_mem hmem (fun j => f (g j)) (f x)
  have hrest := sum_eq_add_sum_sdiff_singleton_of_mem hmem fun j => f (g j)
  simp only [hupd]
  omega

/-- `kvs'` differs from `kvs` in the dict of one slot and in the counters the callbacks maintain. -/
structure Kvstore.Replaces (kvs kvs' : Kvstore S V) (didx : ℕ) (o : Option (Dict S V)) : Prop where
  allocateDictsOnDemand : kvs'.allocateDictsOnDemand = kvs.allocateDictsOnDemand
  freeEmptyDicts : kvs'.freeEmptyDicts = kvs.freeEmptyDicts
  numDictsBits : kvs'.numDictsBits = kvs.numDictsBits
  dicts : kvs'.dicts = kvs.dicts.set didx o
  keyCount : kvs'.keyCount = kvs.keyCount
  nonEmptyDicts : kvs'.nonEmptyDicts = kvs.nonEmptyDicts
  dictSizes : kvs'.dictSizes = kvs.dictSizes
  allocated : kvs'.allocatedDicts =
    kvs.allocatedDicts + (allocatedOf o - allocatedOf (kvstoreGetDict kvs didx))
  buckets : kvs'.bucketCount = kvs.bucketCount + (bucketsOf o - bucketsOf (kvstoreGetDict kvs didx))
  overhead : kvs'.overheadHashtableRehashing =
    kvs.overheadHashtableRehashing + (overheadOf o - overheadOf (kvstoreGetDict kvs didx))

variable {sz : ℕ → ℕ}

namespace Kvstore.Replaces

variable {o : Option (Dict S V)}

section

variable (h : kvs.Replaces kvs' didx o)
include h

lemma numDicts : kvs'.numDicts = kvs.numDicts := by
  rw [Kvstore.numDicts, h.numDictsBits, Kvstore.numDicts]

lemma getDict (hlt : didx < kvs.dicts.length) :
    kvstoreGetDict kvs' = update (kvstoreGetDict kvs) didx o := by
  rw [← kvstoreGetDict_setDict o hlt]
  funext i
  rw [kvstoreGetDict, kvstoreGetDict, h.dicts, setDict]

/-- The counters of the callbacks stay right. -/
lemma shape (hs : kvs.Shape ty) (hlt : didx < kvs.numDicts) (ho : ∀ d, o = some d → d.Stored ty) :
    kvs'.Shape ty := by
  have hget := h.getDict (by rwa [hs.length])
  have htotal : ∀ f : Option (Dict S V) → ℤ,
      kvs'.total f = kvs.total f + (f o - f (kvstoreGetDict kvs didx)) := by
    intro f
    rw [total, h.numDicts, hget]
    exact sum_range_update f (kvstoreGetDict kvs) hlt o
  refine ⟨by rw [h.numDictsBits]; exact hs.bits, ?_, ?_, ?_, ?_, ?_⟩
  · rw [h.dicts, List.length_set, hs.length, h.numDicts]
  · intro i d hd
    rw [hget, update_apply] at hd
    split_ifs at hd with hi
    · exact ho d hd
    · exact hs.stored i d hd
  · rw [h.allocated, hs.allocated, htotal]
  · rw [h.buckets, hs.buckets, htotal]
  · rw [h.overhead, hs.overhead, htotal]

/-- The key counters do not change. -/
lemma counts (hc : kvs.Counts sz) : kvs'.Counts sz := by
  refine ⟨by rw [h.keyCount, h.numDicts, hc.keyCount], fun hne => ?_⟩
  rw [h.numDicts] at hne
  obtain ⟨ft, hft, hbits, hrep⟩ := hc.tree hne
  exact ⟨ft, by rw [h.dictSizes, hft], by rw [hbits, h.numDictsBits], hrep⟩

lemma nonEmptyCounts (hc : kvs.NonEmptyCounts sz) :
    kvs'.NonEmptyCounts sz := by
  rw [Kvstore.NonEmptyCounts, h.nonEmptyDicts, h.numDicts]
  exact hc

end

end Kvstore.Replaces

/-! ### Callbacks -/

lemma foldl_callback (t : List DictCallback) (kvs : Kvstore S V) :
    t.foldl callback kvs = { kvs with
      bucketCount := kvs.bucketCount + (t.map bucketDelta).sum
      overheadHashtableRehashing :=
        kvs.overheadHashtableRehashing + (t.map overheadDelta).sum } := by
  induction t generalizing kvs with
  | nil => simp
  | cons c t ih =>
    rw [List.foldl_cons, ih]
    cases c <;>
      simp [callback, bucketDelta, overheadDelta, add_assoc,
        sub_eq_add_neg]

/-- The callbacks of a dict that is emptied or released. -/
lemma clearCallbacks_deltas (d : Dict S V) :
    ((clearCallbacks d).map bucketDelta).sum = -(dictBuckets d : ℤ) ∧
      ((clearCallbacks d).map overheadDelta).sum = -(rehashingOverhead d : ℤ) := by
  rw [clearCallbacks, rehashingOverhead]
  split_ifs <;> simp [bucketDelta, overheadDelta]

variable {d d' : Dict S V}

lemma Dict.WF.clearTrace (h : d.WF ty) : Dict.WF ty { d with trace := [] } :=
  ⟨h.ht0, h.ht1, h.nodup, h.idle, h.allocated, h.rehashidx_ge, h.rehashed⟩

/-- Storing the result of an operation that reported its changes to the tables. -/
lemma put_replaces (hd : kvstoreGetDict kvs didx = some d) (ht : d.trace = [])
    (hacc : Accounted d d') :
    kvs.Replaces (kvs.put didx d') didx (some { d' with trace := [] }) := by
  obtain ⟨t, htrace, hbuckets, hoverhead⟩ := hacc
  rw [ht, List.nil_append] at htrace
  rw [put, foldl_callback, htrace]
  refine ⟨rfl, rfl, rfl, rfl, rfl, rfl, rfl, ?_, ?_, ?_⟩
  · rw [hd]
    simp [allocatedOf, setDict]
  · rw [hd]
    simp only [bucketsOf, setDict, map_some, getD_some]
    have : dictBuckets { d' with trace := [] } = dictBuckets d' := rfl
    omega
  · rw [hd]
    simp only [overheadOf, setDict, map_some, getD_some]
    have : rehashingOverhead { d' with trace := [] } = rehashingOverhead d' := rfl
    omega

/-- Creating an empty dict. -/
lemma createDict_replaces (hd : kvstoreGetDict kvs didx = none) :
    kvs.Replaces (createDictIfNeeded kvs didx) didx (some dictCreate) := by
  rw [createDictIfNeeded, hd]
  refine ⟨rfl, rfl, rfl, rfl, rfl, rfl, rfl, ?_, ?_, ?_⟩
  · rw [hd]
    simp [allocatedOf]
  · rw [hd]
    simp [bucketsOf, setDict, dictCreate, dictBuckets, DictHt.reset, dicthtSize]
  · rw [hd]
    simp [overheadOf, setDict, dictCreate, rehashingOverhead, dictIsRehashing]

/-- Releasing a dict. -/
lemma release_replaces (hd : kvstoreGetDict kvs didx = some d) :
    kvs.Replaces { ((clearCallbacks d).foldl callback kvs).setDict didx none with
      allocatedDicts := kvs.allocatedDicts - 1 } didx none := by
  obtain ⟨hbuckets, hoverhead⟩ := clearCallbacks_deltas d
  rw [foldl_callback, hbuckets, hoverhead]
  refine ⟨rfl, rfl, rfl, rfl, rfl, rfl, rfl, ?_, ?_, ?_⟩
  · rw [hd]
    simp [allocatedOf, sub_eq_add_neg]
  · rw [hd]
    simp [bucketsOf, setDict]
  · rw [hd]
    simp [overheadOf, setDict]

/-! ### Counting keys -/

/-- The keys of a slot. -/
def slotSize (o : Option (Dict S V)) : ℕ := (o.map dictSize).getD 0

variable {o : Option (Dict S V)}

lemma Kvstore.Replaces.dictSize (h : kvs.Replaces kvs' didx o) (hlt : didx < kvs.dicts.length) :
    kvstoreDictSize kvs' = update (kvstoreDictSize kvs) didx (slotSize o) := by
  funext i
  rw [kvstoreDictSize, h.getDict hlt, update_apply, update_apply]
  split_ifs <;> rfl

/-- What `cumulativeKeyCountAdd` adds to the number of non-empty dicts. -/
def nonEmptyDictsDelta (dsize : ℕ) (delta : ℤ) : ℤ :=
  if dsize = 1 ∧ 0 < delta then 1 else if dsize = 0 then -1 else 0

/-- `kvs'` differs from `kvs` in the key counters only. -/
structure Kvstore.Recounts (kvs kvs' : Kvstore S V) : Prop where
  allocateDictsOnDemand : kvs'.allocateDictsOnDemand = kvs.allocateDictsOnDemand
  freeEmptyDicts : kvs'.freeEmptyDicts = kvs.freeEmptyDicts
  dicts : kvs'.dicts = kvs.dicts
  numDictsBits : kvs'.numDictsBits = kvs.numDictsBits
  allocated : kvs'.allocatedDicts = kvs.allocatedDicts
  buckets : kvs'.bucketCount = kvs.bucketCount
  overhead : kvs'.overheadHashtableRehashing = kvs.overheadHashtableRehashing

namespace Kvstore.Recounts

lemma numDicts (h : kvs.Recounts kvs') : kvs'.numDicts = kvs.numDicts :=
  congrArg (2 ^ ·) h.numDictsBits

lemma getDict (h : kvs.Recounts kvs') : kvstoreGetDict kvs' = kvstoreGetDict kvs := by
  funext i
  rw [kvstoreGetDict, h.dicts, kvstoreGetDict]

lemma dictSize (h : kvs.Recounts kvs') : kvstoreDictSize kvs' = kvstoreDictSize kvs := by
  funext i
  rw [kvstoreDictSize, h.getDict, kvstoreDictSize]

lemma shape (h : kvs.Recounts kvs') (hs : kvs.Shape ty) : kvs'.Shape ty := by
  have htotal : ∀ f, kvs'.total f = kvs.total f := fun f => by
    rw [total, h.numDicts, h.getDict, total]
  refine ⟨by rw [h.numDictsBits]; exact hs.bits, by rw [h.dicts, hs.length, h.numDicts], ?_, ?_, ?_,
    ?_⟩
  · rw [h.getDict]
    exact hs.stored
  · rw [h.allocated, hs.allocated, htotal]
  · rw [h.buckets, hs.buckets, htotal]
  · rw [h.overhead, hs.overhead, htotal]

end Kvstore.Recounts

/-- `cumulativeKeyCountAdd` counts a slot anew and changes nothing else. -/
lemma cumulativeKeyCountAdd_spec (hc : kvs.Counts sz) (hlt : didx < kvs.numDicts)
    (hd : kvstoreGetDict kvs didx = some d) (x : ℕ) :
    ∃ kvs', cumulativeKeyCountAdd kvs didx (x - sz didx) = some kvs' ∧
      kvs'.Counts (update sz didx x) ∧ kvs.Recounts kvs' ∧
      kvs'.nonEmptyDicts = kvs.nonEmptyDicts + nonEmptyDictsDelta (dictSize d) (x - sz didx) := by
  have hkeys : kvs.keyCount + ((x : ℤ) - sz didx) =
      ∑ i ∈ range kvs.numDicts, ((update sz didx x i : ℕ) : ℤ) := by
    rw [hc.keyCount]
    exact (sum_range_update (fun n : ℕ => (n : ℤ)) sz hlt x).symm
  rw [cumulativeKeyCountAdd, hd, bind_some]
  by_cases hone : kvs.numDicts = 1
  · rw [if_pos (by exact hone)]
    exact ⟨_, rfl, ⟨hkeys, fun hne => absurd hone hne⟩, ⟨rfl, rfl, rfl, rfl, rfl, rfl, rfl⟩, rfl⟩
  · obtain ⟨ft, hft, hftbits, hrep⟩ := hc.tree hone
    have hsize : ft.size = kvs.numDicts := by rw [FenwickTree.size, hftbits, numDicts]
    obtain ⟨ft', hupd, hbits', hrep'⟩ := hrep.update (hsize.symm ▸ hlt)
    rw [if_neg (by exact hone), hft, bind_some, hupd]
    exact ⟨_, rfl, ⟨hkeys, fun _ => ⟨ft', rfl, hbits'.trans hftbits, hrep'⟩⟩,
      ⟨rfl, rfl, rfl, rfl, rfl, rfl, rfl⟩, rfl⟩

/-- Adding or removing one key keeps the number of non-empty dicts right. -/
lemma nonEmpty_update {x : ℕ} (hx : x = sz didx + 1 ∨ x + 1 = sz didx)
    (hlt : didx < kvs.numDicts) (hc : kvs.NonEmptyCounts sz) :
    kvs.nonEmptyDicts + nonEmptyDictsDelta x (x - sz didx) =
      ∑ i ∈ range kvs.numDicts, if update sz didx x i = 0 then 0 else 1 := by
  have hsum := sum_range_update (fun n => if n = 0 then (0 : ℤ) else 1) sz hlt x
  rw [hsum, hc, nonEmptyDictsDelta]
  rcases hx with hx | hx
  · by_cases hzero : sz didx = 0
    · rw [if_pos (by omega), if_neg (by omega), if_pos hzero]
      omega
    · rw [if_neg (by omega), if_neg (by omega), if_neg (by omega), if_neg hzero]
      omega
  · by_cases hzero : x = 0
    · rw [if_neg (by omega), if_pos hzero, if_pos hzero, if_neg (by omega)]
      omega
    · rw [if_neg (by omega), if_neg hzero, if_neg hzero, if_neg (by omega)]
      omega

/-! ### Operations on one dict -/

/-- The result of an operation has the same configuration and right counters, the number of
non-empty dicts if it was right before. -/
structure Kvstore.Keeps (ty : DictType K S) (kvs kvs' : Kvstore S V) : Prop where
  shape : kvs'.Shape ty
  counts : kvs'.CountsKeys
  nonEmpty : kvs.NonEmptyCounts (kvstoreDictSize kvs) →
    kvs'.NonEmptyCounts (kvstoreDictSize kvs')
  allocateDictsOnDemand : kvs'.allocateDictsOnDemand = kvs.allocateDictsOnDemand
  freeEmptyDicts : kvs'.freeEmptyDicts = kvs.freeEmptyDicts
  numDictsBits : kvs'.numDictsBits = kvs.numDictsBits

/-- In addition the other dicts are unchanged. -/
structure Kvstore.KeepsOthers (ty : DictType K S) (kvs kvs' : Kvstore S V) (didx : ℕ) : Prop
    extends Kvstore.Keeps ty kvs kvs' where
  others : ∀ i ≠ didx, kvstoreGetDict kvs' i = kvstoreGetDict kvs i

lemma Kvstore.Keeps.refl (hs : kvs.Shape ty) (hc : kvs.CountsKeys) :
    kvs.Keeps ty kvs :=
  ⟨hs, hc, id, rfl, rfl, rfl⟩

lemma Kvstore.Keeps.trans {kvs'' : Kvstore S V} (h : kvs.Keeps ty kvs') (h' : kvs'.Keeps ty kvs'') :
    kvs.Keeps ty kvs'' :=
  ⟨h'.shape, h'.counts, h'.nonEmpty ∘ h.nonEmpty,
    h'.allocateDictsOnDemand.trans h.allocateDictsOnDemand,
    h'.freeEmptyDicts.trans h.freeEmptyDicts, h'.numDictsBits.trans h.numDictsBits⟩

lemma Kvstore.Keeps.numDicts (h : kvs.Keeps ty kvs') : kvs'.numDicts = kvs.numDicts := by
  rw [Kvstore.numDicts, h.numDictsBits, Kvstore.numDicts]

lemma Kvstore.KeepsOthers.refl (hs : kvs.Shape ty) (hc : kvs.CountsKeys) :
    kvs.KeepsOthers ty kvs didx :=
  ⟨.refl hs hc, fun _ _ => rfl⟩

lemma Kvstore.KeepsOthers.trans {kvs'' : Kvstore S V} (h : kvs.KeepsOthers ty kvs' didx)
    (h' : kvs'.KeepsOthers ty kvs'' didx) : kvs.KeepsOthers ty kvs'' didx :=
  ⟨h.toKeeps.trans h'.toKeeps, fun i hi => (h'.others i hi).trans (h.others i hi)⟩

/-- A change of one dict that keeps its number of keys. -/
lemma Kvstore.Replaces.keepsOthers (h : kvs.Replaces kvs' didx o)
    (hs : kvs.Shape ty) (hc : kvs.CountsKeys) (hlt : didx < kvs.numDicts)
    (ho : ∀ d, o = some d → d.Stored ty) (hsize : slotSize o = kvstoreDictSize kvs didx) :
    kvs.KeepsOthers ty kvs' didx := by
  have hlen : didx < kvs.dicts.length := by rwa [hs.length]
  have hsame : kvstoreDictSize kvs' = kvstoreDictSize kvs := by
    rw [h.dictSize hlen, hsize, update_eq_self]
  refine ⟨⟨h.shape hs hlt ho, by rw [CountsKeys, hsame]; exact h.counts hc, fun hne => ?_,
    h.allocateDictsOnDemand, h.freeEmptyDicts, h.numDictsBits⟩, fun i hi => ?_⟩
  · rw [hsame]
    exact h.nonEmptyCounts hne
  · rw [h.getDict hlen, update_of_ne hi]

section

variable (hs : kvs.Shape ty) (hc : kvs.CountsKeys) (hlt : didx < kvs.numDicts)
  (hd : kvstoreGetDict kvs didx = some d) (hwf : d'.WF ty) (hpause : d'.pauseAutoResize ≤ 0)
  (hacc : Accounted d d')
include hs hc hlt hd hwf hpause hacc

/-- A change of one dict that adds or removes a key, followed by counting it. -/
lemma put_count_keepsOthers (hx : dictSize d' = dictSize d + 1 ∨ dictSize d' + 1 = dictSize d) :
    ∃ kvs', cumulativeKeyCountAdd (kvs.put didx d') didx (dictSize d' - dictSize d) = some kvs' ∧
      kvs.KeepsOthers ty kvs' didx ∧ kvstoreGetDict kvs' didx = some { d' with trace := [] } := by
  have hlen : didx < kvs.dicts.length := by rwa [hs.length]
  have hrep := put_replaces hd (hs.stored didx d hd).trace hacc
  have hstored : ∀ e, some { d' with trace := [] } = some e → e.Stored ty := by
    rintro _ ⟨rfl⟩
    exact ⟨hwf.clearTrace, hpause, rfl⟩
  have hget : kvstoreGetDict (kvs.put didx d') didx = some { d' with trace := [] } := by
    rw [hrep.getDict hlen, update_self]
  have hsize : kvstoreDictSize kvs didx = dictSize d := by
    rw [kvstoreDictSize, hd, map_some, getD_some]
  obtain ⟨kvs', hkvs', hcounts, hrec, hnonEmpty⟩ := cumulativeKeyCountAdd_spec (hrep.counts hc)
    (by rwa [hrep.numDicts]) hget (dictSize d')
  have hsizes : kvstoreDictSize kvs' =
      update (kvstoreDictSize kvs) didx (dictSize d') := by
    rw [hrec.dictSize, hrep.dictSize hlen]
    rfl
  rw [hsize] at hkvs'
  refine ⟨kvs', hkvs', ⟨⟨hrec.shape (hrep.shape hs hlt hstored),
    by rw [CountsKeys, hsizes]; exact hcounts, fun hne => ?_,
    hrec.allocateDictsOnDemand.trans hrep.allocateDictsOnDemand,
    hrec.freeEmptyDicts.trans hrep.freeEmptyDicts, hrec.numDictsBits.trans hrep.numDictsBits⟩,
    fun i hi => ?_⟩, by rw [hrec.getDict, hget]⟩
  · have hne' := nonEmpty_update (by rw [hsize]; exact hx) (by rwa [hrep.numDicts])
      (hrep.nonEmptyCounts hne)
    rw [hsizes, Kvstore.NonEmptyCounts, hnonEmpty, hrec.numDicts]
    exact hne'
  · rw [hrec.getDict, hrep.getDict hlen, update_of_ne hi]

/-- A change of one dict that only rearranges it. -/
lemma put_keepsOthers (hsize : dictSize d' = dictSize d) :
    kvs.KeepsOthers ty (kvs.put didx d') didx := by
  refine (put_replaces hd (hs.stored didx d hd).trace hacc).keepsOthers hs hc hlt ?_ ?_
  · rintro _ ⟨rfl⟩
    exact ⟨hwf.clearTrace, hpause, rfl⟩
  · rw [kvstoreDictSize, hd, map_some, ← hsize]
    rfl

end

lemma kvstoreGetDict_put (hs : kvs.Shape ty) (hlt : didx < kvs.numDicts)
    (hd : kvstoreGetDict kvs didx = some d) (hacc : Accounted d d') :
    kvstoreGetDict (kvs.put didx d') didx = some { d' with trace := [] } := by
  rw [(put_replaces hd (hs.stored didx d hd).trace hacc).getDict (by rwa [hs.length]),
    update_self]

lemma createDictIfNeeded_spec (hs : kvs.Shape ty) (hc : kvs.CountsKeys)
    (hlt : didx < kvs.numDicts) :
    kvs.KeepsOthers ty (createDictIfNeeded kvs didx) didx ∧
      ∃ d, kvstoreGetDict (createDictIfNeeded kvs didx) didx = some d ∧
        (kvstoreGetDict kvs didx = some d ∨ kvstoreGetDict kvs didx = none ∧ d = dictCreate) := by
  cases hd : kvstoreGetDict kvs didx with
  | some d =>
    have heq : createDictIfNeeded kvs didx = kvs := by rw [createDictIfNeeded, hd]
    rw [heq]
    exact ⟨.refl hs hc, d, hd, .inl rfl⟩
  | none =>
    have hrep := createDict_replaces hd
    refine ⟨hrep.keepsOthers hs hc hlt ?_ ?_, dictCreate, ?_, .inr ⟨rfl, rfl⟩⟩
    · rintro _ ⟨rfl⟩
      exact ⟨Dict.wf_dictCreate, le_rfl, rfl⟩
    · rw [kvstoreDictSize, hd]
      rfl
    · rw [hrep.getDict (by rwa [hs.length]), update_self]

/-- `freeDictIfNeeded` does nothing or releases an empty dict. -/
lemma freeDictIfNeeded_replaces (env : KvstoreEnv) (kvs : Kvstore S V) (didx : ℕ) :
    freeDictIfNeeded env kvs didx = kvs ∨ kvstoreDictSize kvs didx = 0 ∧
      kvs.Replaces (freeDictIfNeeded env kvs didx) didx none := by
  rw [freeDictIfNeeded]
  cases hd : kvstoreGetDict kvs didx with
  | none => exact .inl rfl
  | some d =>
    dsimp only
    split_ifs with hkeep
    · exact .inl rfl
    · have hempty : kvstoreDictSize kvs didx = 0 := by
        rw [kvstoreDictSize, hd]
        by_contra hne
        exact hkeep (.inr (.inl hne))
      have hallocated : ((clearCallbacks d).foldl callback kvs).allocatedDicts =
          kvs.allocatedDicts := by rw [foldl_callback]
      rw [hallocated]
      exact .inr ⟨hempty, release_replaces hd⟩

lemma freeDictIfNeeded_spec (env : KvstoreEnv) (hs : kvs.Shape ty)
    (hc : kvs.CountsKeys) (hlt : didx < kvs.numDicts) :
    kvs.KeepsOthers ty (freeDictIfNeeded env kvs didx) didx ∧
      (freeDictIfNeeded env kvs didx = kvs ∨
        kvstoreDictSize kvs didx = 0 ∧
        kvstoreGetDict (freeDictIfNeeded env kvs didx) didx = none) := by
  rcases freeDictIfNeeded_replaces env kvs didx with heq | ⟨hempty, hrep⟩
  · rw [heq]
    exact ⟨.refl hs hc, .inl rfl⟩
  · refine ⟨hrep.keepsOthers hs hc hlt (fun _ h => absurd h (by simp)) hempty.symm,
      .inr ⟨hempty, ?_⟩⟩
    rw [hrep.getDict (by rwa [hs.length]), update_self]

end RainCall
