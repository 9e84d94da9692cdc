import RainCall.Kvstore.Bookkeeping

/-!
# The operations keep the counters of a kvstore right

One lemma for each operation: it fails no assertion, and it keeps the invariants. All but
`kvstoreTryResizeDicts` and `kvstoreEmpty` leave the dicts of the other slots alone.
-/

namespace RainCall

open Finset Option

variable {K S V : Type*} [DecidableEq K] {ty : DictType K S} {kvs kvs' : Kvstore S V} {didx : ℕ}

section

variable (env : KvstoreEnv) (hs : kvs.Shape ty) (hc : kvs.CountsKeys)
  (hlt : didx < kvs.numDicts)
include hs hc hlt

omit [DecidableEq K] in
lemma Dict.Rearranges.put {d d' : Dict S V} (hre : d.Rearranges ty d')
    (hd : kvstoreGetDict kvs didx = some d) : kvs.KeepsOthers ty (kvs.put didx d') didx := by
  have hstored := hs.stored didx d hd
  exact put_keepsOthers hs hc hlt hd hre.wf
    (by rw [hre.pauseAutoResize]; exact hstored.pauseAutoResize)
    hre.accounted (hre.dictSize_eq hstored.wf)

/-! ### Insertion -/

omit [DecidableEq K] in
lemma put_insert_spec {d d' : Dict S V} {e : DictEntry S V}
    (hd : kvstoreGetDict kvs didx = some d) (hbec : d.Becomes ty d' (e :: d.entries)) :
    ∃ kvs', cumulativeKeyCountAdd (kvs.put didx d') didx 1 = some kvs' ∧
      kvs.KeepsOthers ty kvs' didx := by
  have hstored := hs.stored didx d hd
  have hsize : dictSize d' = dictSize d + 1 := by
    rw [hbec.dictSize_eq, List.length_cons, hstored.wf.dictSize_eq]
  obtain ⟨kvs', hkvs', hkeeps, -⟩ := put_count_keepsOthers hs hc hlt hd hbec.wf
    (by rw [hbec.pauseAutoResize]; exact hstored.pauseAutoResize) hbec.accounted (.inl hsize)
  rw [show (dictSize d' : ℤ) - dictSize d = 1 by omega] at hkvs'
  exact ⟨kvs', hkvs', hkeeps⟩

omit [DecidableEq K] in
/-- Storing and counting a change that removes an entry, and releasing the dict if that was the
last one. -/
lemma put_remove_spec {d d' : Dict S V} {x : DictEntry S V}
    {es : List (DictEntry S V)} (hd : kvstoreGetDict kvs didx = some d) (hwf : d'.WF ty)
    (hpause : d'.pauseAutoResize ≤ 0) (hacc : Accounted d d') (hperm : d'.entries.Perm es)
    (hes : d.entries.Perm (x :: es)) :
    ∃ kvs', (cumulativeKeyCountAdd (kvs.put didx d') didx (-1)).map
        (freeDictIfNeeded env · didx) = some kvs' ∧ kvs.KeepsOthers ty kvs' didx := by
  have hsize : dictSize d' + 1 = dictSize d := by
    rw [hwf.dictSize_eq, hperm.length_eq, (hs.stored didx d hd).wf.dictSize_eq, hes.length_eq,
      List.length_cons]
  obtain ⟨kvs', hkvs', hkeeps, -⟩ := put_count_keepsOthers hs hc hlt hd hwf hpause hacc (.inr hsize)
  rw [show (dictSize d' : ℤ) - dictSize d = -1 by omega] at hkvs'
  have hlt' : didx < kvs'.numDicts := by rwa [hkeeps.toKeeps.numDicts]
  have hfree := (freeDictIfNeeded_spec env hkeeps.shape hkeeps.counts hlt').1
  exact ⟨_, by rw [hkvs', map_some], hkeeps.trans hfree⟩

lemma kvstoreDictAddRaw_spec (e : DictEntry S V) :
    ∃ kvs' b, kvstoreDictAddRaw ty env kvs didx e = some (kvs', b) ∧
      kvs.KeepsOthers ty kvs' didx := by
  obtain ⟨hkeeps, d, hd, -⟩ := createDictIfNeeded_spec hs hc hlt
  have hstored := hkeeps.shape.stored didx d hd
  have hlt' : didx < (createDictIfNeeded kvs didx).numDicts := by rwa [hkeeps.toKeeps.numDicts]
  rw [kvstoreDictAddRaw]
  rw [hd, bind_some]
  rcases dictAddRaw_spec env.canResize e hstored.wf (Dict.roomy_of_le hstored.pauseAutoResize) with
    ⟨d', hd', -, hbec⟩ | ⟨d', l, x, hd', -, -, hre⟩
  · obtain ⟨kvs', hkvs', hkeeps'⟩ := put_insert_spec hkeeps.shape hkeeps.counts hlt' hd hbec
    refine ⟨kvs', true, ?_, hkeeps.trans hkeeps'⟩
    rw [hd', bind_some]
    rw [if_pos isNone_none, hkvs', map_some]
  · refine ⟨(createDictIfNeeded kvs didx).put didx d', false, ?_,
      hkeeps.trans (hre.put hkeeps.shape hkeeps.counts hlt' hd)⟩
    rw [hd', bind_some, if_neg (by simp)]

lemma kvstoreDictSetNewAtLink_spec (e : DictEntry S V) {link : Option DictEntryLink}
    (hnew : ∀ d, kvstoreGetDict kvs didx = some d → d.lookup ty (ty.entryKey e) = none ∧
      (link = none ∨ link = insertBucket ty d (ty.entryKey e)))
    (hnull : kvstoreGetDict kvs didx = none → link = none) :
    ∃ kvs', kvstoreDictSetNewAtLink ty env kvs didx e link = some kvs' ∧
      kvs.KeepsOthers ty kvs' didx := by
  obtain ⟨hkeeps, d, hd, horigin⟩ := createDictIfNeeded_spec hs hc hlt
  have hstored := hkeeps.shape.stored didx d hd
  have hlink : d.lookup ty (ty.entryKey e) = none ∧
      (link = none ∨ link = insertBucket ty d (ty.entryKey e)) := by
    rcases horigin with horigin | ⟨hnone, rfl⟩
    · exact hnew d horigin
    · exact ⟨rfl, .inl (hnull hnone)⟩
  obtain ⟨d', hd', hbec⟩ := dictSetNewKeyAtLink_spec env.canResize e hstored.wf hlink.1 hlink.2
  obtain ⟨kvs', hkvs', hkeeps'⟩ := put_insert_spec hkeeps.shape hkeeps.counts
    (by rwa [hkeeps.toKeeps.numDicts]) hd hbec
  refine ⟨kvs', ?_, hkeeps.trans hkeeps'⟩
  rw [kvstoreDictSetNewAtLink, hd, bind_some, hd', bind_some, hkvs']

lemma kvstoreDictFindLinkAndSet_spec (e : DictEntry S V) :
    ∃ kvs', kvstoreDictFindLinkAndSet ty env kvs didx e = some kvs' ∧
      kvs.KeepsOthers ty kvs' didx := by
  rw [kvstoreDictFindLinkAndSet]
  cases hd : kvstoreGetDict kvs didx with
  | none =>
    exact kvstoreDictSetNewAtLink_spec env hs hc hlt e
      (fun d h => absurd (hd.symm.trans h) (by simp))
      fun _ => rfl
  | some d =>
    have hstored := hs.stored didx d hd
    dsimp only
    obtain ⟨d1, hre, ⟨l, x, b, hd1, hx, hlook⟩ | ⟨b, hd1, hlook, hb⟩⟩ :=
      dictFindLink_spec env.canResize (ty.entryKey e) true hstored.wf
    · have hkey : ty.entryKey x = ty.entryKey e := (hstored.wf.lookup_eq_some.mp hlook).2
      obtain ⟨es, hes, hbec⟩ :=
        hre.wf.modifyAt hx (f := fun old => { old with key := e.key }) hkey.symm
      have hbec' := hre.then hbec
      rw [hd1, bind_some]
      dsimp only
      rw [dictSetKeyAtExistingLink]
      refine ⟨_, rfl, put_keepsOthers hs hc hlt hd hbec'.wf ?_ hbec'.accounted ?_⟩
      · rw [hbec'.pauseAutoResize]
        exact hstored.pauseAutoResize
      · rw [hbec'.dictSize_eq, List.length_cons, ← hre.dictSize_eq hstored.wf, hre.wf.dictSize_eq,
          hes.length_eq, List.length_cons]
    · have hkeeps := hre.put hs hc hlt hd
      have hget := kvstoreGetDict_put hs hlt hd hre.accounted
      have hnew : ∀ d, kvstoreGetDict (kvs.put didx d1) didx = some d →
          d.lookup ty (ty.entryKey e) = none ∧
          (b = none ∨ b = insertBucket ty d (ty.entryKey e)) := by
        intro d h
        obtain rfl : { d1 with trace := [] } = d := some.inj (hget.symm.trans h)
        exact ⟨by rw [← hlook, ← hre.lookup_eq]; rfl, hb⟩
      obtain ⟨kvs', hkvs', hkeeps'⟩ := kvstoreDictSetNewAtLink_spec env hkeeps.shape
        hkeeps.counts (by rwa [hkeeps.toKeeps.numDicts]) e hnew
        (fun h => absurd (hget.symm.trans h) (by simp))
      rw [hd1]
      exact ⟨kvs', hkvs', hkeeps.trans hkeeps'⟩

/-! ### Deletion -/

lemma kvstoreDictDelete_spec (k : K) :
    ∃ kvs' b, kvstoreDictDelete ty env kvs didx k = some (kvs', b) ∧
      kvs.KeepsOthers ty kvs' didx := by
  rw [kvstoreDictDelete]
  cases hd : kvstoreGetDict kvs didx with
  | none => exact ⟨kvs, false, rfl, .refl hs hc⟩
  | some d =>
    have hstored := hs.stored didx d hd
    dsimp only
    rcases dictGenericDelete_spec env.canResize k hstored.wf with
      ⟨d', hd', -, hre⟩ | ⟨d', x, es, hd', -, hes, hbec⟩
    · exact ⟨kvs.put didx d', false, by rw [dictDelete, hd']; rfl, hre.put hs hc hlt hd⟩
    · obtain ⟨kvs', hkvs', hkeeps⟩ := put_remove_spec env hs hc hlt hd hbec.wf
        (by rw [hbec.pauseAutoResize]; exact hstored.pauseAutoResize) hbec.accounted hbec.perm hes
      obtain ⟨kvs1, hkvs1, rfl⟩ := map_eq_some_iff.mp hkvs'
      refine ⟨_, true, ?_, hkeeps⟩
      rw [dictDelete, hd', map_some, bind_some]
      rw [if_pos isSome_some, hkvs1, map_some]

lemma kvstoreDictTwoPhaseUnlink_spec (k : K) :
    ∃ kvs', kvstoreDictTwoPhaseUnlink ty env kvs didx k = some kvs' ∧
      kvs.KeepsOthers ty kvs' didx := by
  rw [kvstoreDictTwoPhaseUnlink]
  cases hd : kvstoreGetDict kvs didx with
  | none => exact ⟨kvs, rfl, .refl hs hc⟩
  | some d =>
    have hstored := hs.stored didx d hd
    dsimp only
    obtain ⟨d1, hre, ⟨hd1, -⟩ | ⟨l, x, hd1, hx, -⟩⟩ :=
      dictTwoPhaseUnlinkFind_spec env.canResize k hstored.wf
    · rw [hd1]
      exact ⟨_, rfl, hre.put hs hc hlt hd⟩
    · have hpause : d1.pauseAutoResize ≤ 0 := by
        rw [hre.pauseAutoResize]
        exact hstored.pauseAutoResize
      have hacc := hre.accounted.trans (Accounted.setPause d1 (d1.pauserehash + 1))
      have hkeeps := put_keepsOthers hs hc hlt hd (hre.wf.setPause (d1.pauserehash + 1)) hpause hacc
        (hre.dictSize_eq hstored.wf)
      have hget := kvstoreGetDict_put hs hlt hd hacc
      have hwf : Dict.WF ty { d1 with trace := [] } := hre.wf.clearTrace
      obtain ⟨d', es, hd', hes, hbec⟩ := dictTwoPhaseUnlinkFree_spec env.canResize hwf hx
      have hacc' : Accounted { d1 with pauserehash := d1.pauserehash + 1, trace := [] } d' :=
        (Accounted.of_sizeExp_eq rfl rfl rfl Iff.rfl).trans hbec.accounted
      obtain ⟨kvs', hkvs', hkeeps'⟩ := put_remove_spec env hkeeps.shape hkeeps.counts
        (by rwa [hkeeps.toKeeps.numDicts]) hget hbec.wf
        (by rw [hbec.pauseAutoResize]; exact hpause) hacc' hbec.perm hes
      refine ⟨kvs', ?_, hkeeps.trans hkeeps'⟩
      rw [hd1, bind_some]
      dsimp only
      rw [kvstoreDictTwoPhaseUnlinkFree, hget]
      exact (congrArg (bind · _) hd').trans hkvs'

/-! ### Lookup, resizing and rehashing -/

lemma kvstoreDictFind_spec (k : K) :
    ∃ kvs' r, kvstoreDictFind ty env kvs didx k = some (kvs', r) ∧
      kvs.KeepsOthers ty kvs' didx := by
  rw [kvstoreDictFind]
  cases hd : kvstoreGetDict kvs didx with
  | none => exact ⟨kvs, none, rfl, .refl hs hc⟩
  | some d =>
    obtain ⟨d', hd', hre⟩ := dictFind_spec env.canResize k (hs.stored didx d hd).wf
    exact ⟨_, _, by dsimp only; rw [hd', map_some], hre.put hs hc hlt hd⟩

omit [DecidableEq K] in
lemma kvstoreDictExpand_spec (size : ℕ) :
    ∃ kvs' b, kvstoreDictExpand ty env kvs didx size = some (kvs', b) ∧
      kvs.KeepsOthers ty kvs' didx := by
  obtain ⟨hkeeps, d, hd, -⟩ := createDictIfNeeded_spec hs hc hlt
  obtain ⟨d', b, hd', hre⟩ := dictExpand_spec env.canResize size (hkeeps.shape.stored didx d hd).wf
  refine ⟨_, b, ?_, hkeeps.trans (hre.toRearranges.put hkeeps.shape hkeeps.counts
    (by rwa [hkeeps.toKeeps.numDicts]) hd)⟩
  rw [kvstoreDictExpand, hd, bind_some, hd', map_some]

omit [DecidableEq K] in
/-- Rehashing one dict. -/
lemma kvstoreDictRehash_spec (n : ℕ) :
    ∃ kvs', kvstoreDictRehash ty env kvs didx n = some kvs' ∧ kvs.KeepsOthers ty kvs' didx := by
  rw [kvstoreDictRehash]
  cases hd : kvstoreGetDict kvs didx with
  | none => exact ⟨kvs, rfl, .refl hs hc⟩
  | some d =>
    obtain ⟨d', b, hd', hre, -⟩ := dictRehash_spec env.canResize n (hs.stored didx d hd).wf
    exact ⟨_, by dsimp only; rw [hd', map_some], hre.toRearranges.put hs hc hlt hd⟩

end

omit [DecidableEq K] in
lemma tryResizeDict_spec (env : KvstoreEnv) {d : Dict S V} (h : d.WF ty) :
    ∃ d', tryResizeDict ty env d = some d' ∧ d.Rearranges ty d' := by
  obtain ⟨d1, b, hd1, hre1⟩ := dictShrinkIfNeeded_spec env.canResize h
  rw [tryResizeDict, hd1]
  cases b with
  | true => exact ⟨d1, rfl, hre1.toRearranges⟩
  | false =>
    obtain ⟨d2, b, hd2, hre2, -⟩ := dictExpandIfNeeded_spec env.canResize hre1.wf
    exact ⟨d2, by simp [hd2], hre1.toRearranges.trans hre2.toRearranges⟩

omit [DecidableEq K] in
lemma Kvstore.Keeps.setResizeCursor (h : kvs.Keeps ty kvs') (n : ℕ) :
    kvs.Keeps ty { kvs' with resizeCursor := n } :=
  ⟨⟨h.shape.bits, h.shape.length, h.shape.stored, h.shape.allocated, h.shape.buckets,
    h.shape.overhead⟩, ⟨h.counts.keyCount, h.counts.tree⟩, h.nonEmpty, h.allocateDictsOnDemand,
    h.freeEmptyDicts, h.numDictsBits⟩

omit [DecidableEq K] in
/-- `kvstoreTryResizeDicts` -/
lemma kvstoreTryResizeLoop_spec (env : KvstoreEnv) (limit : ℕ) (hs : kvs.Shape ty)
    (hc : kvs.CountsKeys) :
    ∃ kvs', kvstoreTryResizeLoop ty env limit kvs = some kvs' ∧ kvs.Keeps ty kvs' := by
  induction limit generalizing kvs with
  | zero => exact ⟨kvs, rfl, .refl hs hc⟩
  | succ limit ih =>
    have hnext : ∀ kvs1, kvs.Keeps ty kvs1 → ∃ kvs', kvstoreTryResizeLoop ty env limit
        { kvs1 with resizeCursor := (kvs.resizeCursor + 1) % kvs1.numDicts } = some kvs' ∧
          kvs.Keeps ty kvs' := by
      intro kvs1 hkeeps
      have hkeeps1 := hkeeps.setResizeCursor ((kvs.resizeCursor + 1) % kvs1.numDicts)
      obtain ⟨kvs', hkvs', hkeeps'⟩ := ih hkeeps1.shape hkeeps1.counts
      exact ⟨kvs', hkvs', hkeeps1.trans hkeeps'⟩
    rw [kvstoreTryResizeLoop]
    cases hd : kvstoreGetDict kvs kvs.resizeCursor with
    | none => exact hnext kvs (.refl hs hc)
    | some d =>
      have hlt : kvs.resizeCursor < kvs.numDicts := by
        rw [← hs.length]
        by_contra hge
        rw [kvstoreGetDict, List.getD_eq_default _ _ (by omega)] at hd
        exact absurd hd (by simp)
      obtain ⟨d', hd', hre⟩ := tryResizeDict_spec env (hs.stored _ d hd).wf
      dsimp only
      rw [hd']
      exact hnext _ (hre.put hs hc hlt hd).toKeeps

/-! ### Emptying -/

omit [DecidableEq K] in
/-- An emptied dict. -/
lemma dictEmpty_stored (d : Dict S V) : Dict.Stored ty { dictEmpty d with trace := [] } :=
  ⟨⟨DictHt.wf_reset, DictHt.wf_reset, by simp [Dict.entries, dictEmpty, _dictClear], fun _ => rfl,
    fun h => absurd rfl h, le_rfl, fun i hi => by simp [dictEmpty] at hi; omega⟩, le_rfl, rfl⟩

omit [DecidableEq K] in
lemma dictEmpty_accounted (d : Dict S V) : Accounted d (dictEmpty d) := by
  obtain ⟨hbuckets, hoverhead⟩ := clearCallbacks_deltas d
  refine ⟨clearCallbacks d, rfl, ?_, ?_⟩
  · rw [show dictBuckets (dictEmpty d) = 0 from rfl]
    omega
  · rw [rehashingOverhead_of_not (not_not.mpr rfl)]
    omega

/-- The slot is `NULL` or an empty dict without tables. -/
def IsBlank (o : Option (Dict S V)) : Prop :=
  slotSize o = 0 ∧ bucketsOf o = 0 ∧ overheadOf o = 0

/-- What emptying slots does: some slots become blank and the others are unchanged. -/
structure Kvstore.Blanks (ty : DictType K S) (kvs kvs' : Kvstore S V) (I : ℕ → Prop) : Prop where
  shape : kvs'.Shape ty
  numDictsBits : kvs'.numDictsBits = kvs.numDictsBits
  allocateDictsOnDemand : kvs'.allocateDictsOnDemand = kvs.allocateDictsOnDemand
  freeEmptyDicts : kvs'.freeEmptyDicts = kvs.freeEmptyDicts
  blank : ∀ i, I i → IsBlank (kvstoreGetDict kvs' i)

omit [DecidableEq K] in
/-- Emptying one more slot. -/
lemma Kvstore.Blanks.emptyDict {I : ℕ → Prop} (env : KvstoreEnv) (h : kvs.Blanks ty kvs' I)
    (hlt : didx < kvs'.numDicts) :
    kvs.Blanks ty (kvstoreEmptyDict env kvs' didx) fun i => I i ∨ i = didx := by
  -- a slot that becomes blank
  have hreplace : ∀ {kvs1 kvs2 : Kvstore S V} {o : Option (Dict S V)} {J : ℕ → Prop},
      kvs.Blanks ty kvs1 J → kvs1.numDicts = kvs'.numDicts → kvs1.Replaces kvs2 didx o → IsBlank o →
      (∀ d, o = some d → d.Stored ty) → kvs.Blanks ty kvs2 fun i => J i ∨ i = didx := by
    intro kvs1 kvs2 o J h1 hnum hrep hblank hstored
    refine ⟨hrep.shape h1.shape (by rwa [hnum]) hstored, hrep.numDictsBits.trans h1.numDictsBits,
      hrep.allocateDictsOnDemand.trans h1.allocateDictsOnDemand,
      hrep.freeEmptyDicts.trans h1.freeEmptyDicts, fun i hi => ?_⟩
    rw [hrep.getDict (by rw [h1.shape.length, hnum]; exact hlt), Function.update_apply]
    split_ifs with hid
    · exact hblank
    · exact h1.blank i (hi.resolve_right hid)
  rw [kvstoreEmptyDict]
  cases hd : kvstoreGetDict kvs' didx with
  | none =>
    refine ⟨h.shape, h.numDictsBits, h.allocateDictsOnDemand, h.freeEmptyDicts, fun i hi => ?_⟩
    rcases hi with hi | rfl
    · exact h.blank i hi
    · rw [hd]
      exact ⟨rfl, rfl, rfl⟩
  | some d =>
    dsimp only
    have hrep := put_replaces hd (h.shape.stored didx d hd).trace (dictEmpty_accounted d)
    have hput := hreplace h rfl hrep ⟨rfl, rfl, rfl⟩ (by rintro _ ⟨rfl⟩; exact dictEmpty_stored d)
    rcases freeDictIfNeeded_replaces env (kvs'.put didx (dictEmpty d)) didx with heq | ⟨-, hrep'⟩
    · rw [heq]
      exact hput
    · have hfree :=
        hreplace hput hrep.numDicts hrep' ⟨rfl, rfl, rfl⟩ (fun _ h => absurd h (by simp))
      refine ⟨hfree.shape, hfree.numDictsBits, hfree.allocateDictsOnDemand, hfree.freeEmptyDicts,
        fun i hi => hfree.blank i (.inl hi)⟩

omit [DecidableEq K] in
/-- Emptying all slots. -/
lemma foldl_emptyDict_spec (env : KvstoreEnv) (hs : kvs.Shape ty) {n : ℕ} (hn : n ≤ kvs.numDicts) :
    kvs.Blanks ty ((List.range n).foldl (kvstoreEmptyDict env) kvs) fun i => i < n := by
  induction n with
  | zero => exact ⟨hs, rfl, rfl, rfl, fun i hi => absurd hi (by omega)⟩
  | succ n ih =>
    have h := ih (by omega)
    rw [List.range_succ, List.foldl_append]
    have hlt : n < ((List.range n).foldl (kvstoreEmptyDict env) kvs).numDicts := by
      rw [Kvstore.numDicts, h.numDictsBits]
      exact hn
    have h' := h.emptyDict env hlt
    exact ⟨h'.shape, h'.numDictsBits, h'.allocateDictsOnDemand, h'.freeEmptyDicts,
      fun i hi => h'.blank i (by omega)⟩

omit [DecidableEq K] in
lemma kvstoreEmpty_spec (env : KvstoreEnv) (hs : kvs.Shape ty)
    (hc : kvs.CountsKeys) :
    kvs.Keeps ty (kvstoreEmpty env kvs) := by
  have h := foldl_emptyDict_spec env hs (le_refl kvs.numDicts)
  have hnum : (kvstoreEmpty env kvs).numDicts = kvs.numDicts :=
    congrArg (2 ^ ·) h.numDictsBits
  have hblank : ∀ i ∈ range kvs.numDicts, IsBlank (kvstoreGetDict (kvstoreEmpty env kvs) i) :=
    fun i hi => h.blank i (mem_range.mp hi)
  have hsize : ∀ i ∈ range kvs.numDicts, kvstoreDictSize (kvstoreEmpty env kvs) i = 0 :=
    fun i hi => (hblank i hi).1
  refine ⟨⟨?_, ?_, h.shape.stored, h.shape.allocated, ?_, ?_⟩, ⟨?_, ?_⟩, fun _ => ?_,
    h.allocateDictsOnDemand, h.freeEmptyDicts, h.numDictsBits⟩
  · exact h.shape.bits
  · exact h.shape.length
  · rw [Kvstore.total, hnum, sum_eq_zero fun i hi => (hblank i hi).2.1]
    rfl
  · rw [Kvstore.total, hnum, sum_eq_zero fun i hi => (hblank i hi).2.2]
    rfl
  · rw [hnum, sum_eq_zero fun i hi => by rw [hsize i hi]; rfl]
    rfl
  · intro hne
    rw [hnum] at hne
    obtain ⟨ft, hft, hbits, hrep⟩ := hc.tree hne
    refine ⟨fwTreeClear ft, by rw [kvstoreEmpty, hft]; rfl, hbits.trans h.numDictsBits.symm, ?_⟩
    refine hrep.clear.congr fun j hj => (hsize j (mem_range.mpr ?_)).symm
    rw [Kvstore.numDicts, ← hbits]
    exact hj
  · rw [Kvstore.NonEmptyCounts, hnum, sum_eq_zero fun i hi => by rw [if_pos (hsize i hi)]]
    rfl

/-! ### Steps -/

omit [DecidableEq K] in
def KvstoreOp.InRange (op : KvstoreOp K S V) (numDicts : ℕ) : Prop :=
  ∀ didx, op.didx? = some didx → didx < numDicts

variable {op : KvstoreOp K S V}

omit [DecidableEq K] in
/-- An operation on one dict. -/
lemma Kvstore.KeepsOthers.step {r : Option (Kvstore S V)}
    (hop : op.didx? = some didx) (hr : r = some kvs') (h : kvs.KeepsOthers ty kvs' didx) :
    ∃ kvs', r = some kvs' ∧ kvs.Keeps ty kvs' ∧
      ∀ didx, op.didx? = some didx → kvs.KeepsOthers ty kvs' didx := by
  refine ⟨kvs', hr, h.toKeeps, fun i hi => ?_⟩
  obtain rfl : didx = i := some.inj (hop.symm.trans hi)
  exact h

/-- One operation fails no assertion and keeps the counters right. -/
lemma kvstoreStep_spec (hs : kvs.Shape ty) (hc : kvs.CountsKeys)
    (env : KvstoreEnv) (hop : op.InRange kvs.numDicts) :
    ∃ kvs', kvstoreStep ty kvs (env, op) = some kvs' ∧ kvs.Keeps ty kvs' ∧
      ∀ didx, op.didx? = some didx → kvs.KeepsOthers ty kvs' didx := by
  cases op with
  | addRaw didx e =>
    obtain ⟨kvs', b, hkvs', hkeeps⟩ := kvstoreDictAddRaw_spec env hs hc (hop didx rfl) e
    exact hkeeps.step rfl (by rw [kvstoreStep, hkvs', map_some])
  | findLinkAndSet didx e =>
    obtain ⟨kvs', hkvs', hkeeps⟩ := kvstoreDictFindLinkAndSet_spec env hs hc (hop didx rfl) e
    exact hkeeps.step rfl hkvs'
  | delete didx k =>
    obtain ⟨kvs', b, hkvs', hkeeps⟩ := kvstoreDictDelete_spec env hs hc (hop didx rfl) k
    exact hkeeps.step rfl (by rw [kvstoreStep, hkvs', map_some])
  | twoPhaseUnlink didx k =>
    obtain ⟨kvs', hkvs', hkeeps⟩ := kvstoreDictTwoPhaseUnlink_spec env hs hc (hop didx rfl) k
    exact hkeeps.step rfl hkvs'
  | find didx k =>
    obtain ⟨kvs', r, hkvs', hkeeps⟩ := kvstoreDictFind_spec env hs hc (hop didx rfl) k
    exact hkeeps.step rfl (by rw [kvstoreStep, hkvs', map_some])
  | expand didx size =>
    obtain ⟨kvs', b, hkvs', hkeeps⟩ := kvstoreDictExpand_spec env hs hc (hop didx rfl) size
    exact hkeeps.step rfl (by rw [kvstoreStep, hkvs', map_some])
  | tryResizeDicts limit =>
    obtain ⟨kvs', hkvs', hkeeps⟩ := kvstoreTryResizeLoop_spec env (min limit kvs.numDicts) hs hc
    exact ⟨kvs', hkvs', hkeeps, fun i hi => absurd hi (by simp [KvstoreOp.didx?])⟩
  | rehash didx n =>
    obtain ⟨kvs', hkvs', hkeeps⟩ := kvstoreDictRehash_spec env hs hc (hop didx rfl) n
    exact hkeeps.step rfl hkvs'
  | empty =>
    exact ⟨_, rfl, kvstoreEmpty_spec env hs hc, fun i hi => absurd hi (by simp [KvstoreOp.didx?])⟩
  | createDict didx => exact (createDictIfNeeded_spec hs hc (hop didx rfl)).1.step rfl rfl
  | freeDict didx => exact (freeDictIfNeeded_spec env hs hc (hop didx rfl)).1.step rfl rfl

end RainCall
