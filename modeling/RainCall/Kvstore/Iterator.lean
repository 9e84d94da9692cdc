import RainCall.Dict.Iterator
import RainCall.Kvstore.Scan

/-!
# Iterating over a kvstore

A `kvstoreIterator` walks the dicts one after the other with a safe iterator. It remembers the index
of the next dict with a key when it enters a dict. `kvstoreIterator_complete`: if that dict still
has a key when the iterator goes there, every key that is present at all of the calls is returned
exactly once. If it has none any more, the iteration ends there, and the keys of all later dicts are
missed.

Between the calls the caller may use all dicts but the current one, and delete the entry that was
returned last. The current dict is not released meanwhile, because its rehashing is paused.
-/

namespace RainCall

open List Option

variable {K S V : Type*}

/-! ### The model -/

structure KvstoreIterator (K : Type*) where
  didx : ℤ
  nextDidx : ℤ
  /-- The slot of the dict that the field `d` of `di` points to, `none` for `NULL`. -/
  dict : Option ℕ
  di : DictIterator K
deriving DecidableEq, Repr

def kvstoreGetFirstNonEmptyDictIndex (kvs : Kvstore S V) : Option ℤ :=
  if kvs.keyCount = 0 then some (-1)
  else if kvs.numDicts = 1 then some 0
  else kvs.dictSizes.bind fun ft => (fwTreeFindFirstNonEmpty ft).map Nat.cast

def kvstoreIteratorInit (kvs : Kvstore S V) : Option (KvstoreIterator K) :=
  (kvstoreGetFirstNonEmptyDictIndex kvs).map fun next => ⟨-1, next, none, dictInitSafeIterator⟩

/-- The part of `kvstoreIteratorNextDict` that leaves the current dict. -/
def kvstoreIteratorLeave (env : KvstoreEnv) (kvs : Kvstore S V) (it : KvstoreIterator K) :
    Option (Kvstore S V) :=
  if it.didx ≠ -1 ∧ (kvstoreGetDict kvs it.didx.toNat).isSome then
    (if it.di.Unused then some kvs
      else it.dict.bind fun i =>
        (kvstoreGetDict kvs i).map fun d => kvs.put i (dictResetIterator d it.di)).map
      fun kvs => freeDictIfNeeded env kvs it.didx.toNat
  else some kvs

/-- `kvstoreIteratorNextDict`; the dict returned is given by its slot. -/
def kvstoreIteratorNextDict (env : KvstoreEnv) (kvs : Kvstore S V) (it : KvstoreIterator K) :
    Option (Kvstore S V × KvstoreIterator K × Option ℕ) :=
  if it.nextDidx = -1 then some (kvs, it, none)
  else
    (kvstoreIteratorLeave env kvs it).bind fun kvs =>
    (kvstoreGetNextNonEmptyDictIndex kvs it.nextDidx.toNat).map fun next =>
      (kvs, { it with didx := it.nextDidx, nextDidx := next },
        (kvstoreGetDict kvs it.nextDidx.toNat).map fun _ => it.nextDidx.toNat)

variable [DecidableEq K]

/-- The calls of `dictNext` on the current dict. -/
def kvstoreIteratorDictNext (ty : DictType K S) (kvs : Kvstore S V) (it : KvstoreIterator K) :
    Option (Kvstore S V × KvstoreIterator K × Option (DictEntry S V)) :=
  it.dict.bind fun i =>
  (kvstoreGetDict kvs i).bind fun d =>
  (dictNext ty d it.di).map fun r => (kvs.put i r.1, { it with di := r.2.1 }, r.2.2)

def kvstoreIteratorNext (ty : DictType K S) (env : KvstoreEnv) (kvs : Kvstore S V)
    (it : KvstoreIterator K) : Option (Kvstore S V × KvstoreIterator K × Option (DictEntry S V)) :=
  (if it.dict.isSome then kvstoreIteratorDictNext ty kvs it else some (kvs, it, none)).bind fun r =>
  if r.2.2.isSome then some r
  else
    (kvstoreIteratorNextDict env r.1 r.2.1).bind fun n =>
    if n.2.2.isSome then
      kvstoreIteratorDictNext ty n.1 { n.2.1 with dict := n.2.2, di := dictInitSafeIterator }
    else some (n.1, n.2.1, none)

/-- The entries of the current dict that the iterator has not passed. -/
def KvstoreIterator.remaining (ty : DictType K S) (kvs : Kvstore S V) (it : KvstoreIterator K) :
    List (DictEntry S V) :=
  ((it.dict.bind (kvstoreGetDict kvs)).map (DictIterator.remaining ty · it.di)).getD []

variable {ty : DictType K S} {kvs kvs' : Kvstore S V} {it : KvstoreIterator K} {didx : ℕ}

/-! ### Deleting from a dict that is being iterated -/

omit [DecidableEq K] in
lemma kvstoreGetDict_cumulativeKeyCountAdd {delta : ℤ}
    (h : cumulativeKeyCountAdd kvs didx delta = some kvs') :
    kvstoreGetDict kvs' = kvstoreGetDict kvs := by
  rw [cumulativeKeyCountAdd] at h
  obtain ⟨d, -, h⟩ := bind_eq_some_iff.mp h
  dsimp only at h
  split_ifs at h
  all_goals try
    cases h
    rfl
  all_goals
    obtain ⟨ft, -, h⟩ := bind_eq_some_iff.mp h
    obtain ⟨ft', -, rfl⟩ := map_eq_some_iff.mp h
    rfl

omit [DecidableEq K] in
variable {d : Dict S V}

/-- A dict whose rehashing is paused is not released. -/
lemma freeDictIfNeeded_of_paused (env : KvstoreEnv) (hd : kvstoreGetDict kvs didx = some d)
    (hpause : 0 < d.pauserehash) :
    freeDictIfNeeded env kvs didx = kvs := by
  rw [freeDictIfNeeded, hd]
  exact if_pos (.inr (.inr (.inl hpause)))

/-- The slot `didx` holds `d` before and a dict without the entry of `k` afterwards, whose rehashing
is still paused. -/
def Kvstore.DropsEntry (ty : DictType K S) (kvs' : Kvstore S V) (didx : ℕ) (d : Dict S V) (k : K) :
    Prop :=
  ∃ d', kvstoreGetDict kvs' didx = some d' ∧ d'.pauserehash = d.pauserehash ∧
    d.Filters (fun y => decide (ty.entryKey y ≠ k)) d'

variable {env : KvstoreEnv}

lemma kvstoreDictDelete_paused (hfull : ty.forceFullRehash = false) (hs : kvs.Shape ty)
    (hlt : didx < kvs.numDicts) (hd : kvstoreGetDict kvs didx = some d) (hpause : 0 < d.pauserehash)
    {k : K} {b : Bool} (hdel : kvstoreDictDelete ty env kvs didx k = some (kvs', b)) :
    kvs'.DropsEntry ty didx d k := by
  have hwf := (hs.stored didx d hd).wf
  obtain ⟨d', r, hd', hacc, hsame⟩ : ∃ d' r, dictGenericDelete ty env.canResize d k = some (d', r) ∧
      Accounted d d' ∧ d'.pauserehash = d.pauserehash := by
    rcases dictGenericDelete_spec env.canResize k hwf with
      ⟨d', hd', -, hre⟩ | ⟨d', x, es, hd', -, -, hbec⟩
    · exact ⟨d', none, hd', hre.accounted, hre.pauserehash⟩
    · exact ⟨d', some x, hd', hbec.accounted, hbec.pauserehash⟩
  have hget := kvstoreGetDict_put hs hlt hd hacc
  have hfilters := dictGenericDelete_filters hfull hwf hpause.ne' hd'
  refine ⟨{ d' with trace := [] }, ?_, hsame, ⟨hfilters.ht0, hfilters.ht1⟩⟩
  rw [kvstoreDictDelete, hd] at hdel
  dsimp only at hdel
  rw [dictDelete, hd', map_some, bind_some] at hdel
  split_ifs at hdel
  · obtain ⟨kvs1, hkvs1, heq⟩ := map_eq_some_iff.mp hdel
    have hget1 : kvstoreGetDict kvs1 didx = some { d' with trace := [] } := by
      rw [kvstoreGetDict_cumulativeKeyCountAdd hkvs1, hget]
    rw [freeDictIfNeeded_of_paused env hget1 (by rw [← hsame] at hpause; exact hpause)] at heq
    cases heq
    exact hget1
  · cases hdel
    exact hget

lemma kvstoreDictTwoPhaseUnlink_paused (hfull : ty.forceFullRehash = false) (hs : kvs.Shape ty)
    (hc : kvs.CountsKeys) (hlt : didx < kvs.numDicts)
    (hd : kvstoreGetDict kvs didx = some d) (hpause : 0 < d.pauserehash) {k : K}
    (hdel : kvstoreDictTwoPhaseUnlink ty env kvs didx k = some kvs') :
    kvs'.DropsEntry ty didx d k := by
  have hstored := hs.stored didx d hd
  rw [kvstoreDictTwoPhaseUnlink, hd] at hdel
  dsimp only at hdel
  rcases dictTwoPhaseUnlinkFind_paused hstored.wf hpause.ne' env.canResize k with
    ⟨hfind, hlook⟩ | ⟨l, x, hfind, hx, rfl⟩
  · rw [hfind] at hdel
    cases hdel
    refine ⟨_, kvstoreGetDict_put hs hlt hd (Accounted.refl d), rfl, ?_⟩
    have hfilters := Dict.Filters.of_lookup_eq_none hlook
    exact ⟨hfilters.ht0, hfilters.ht1⟩
  · rw [hfind, bind_some] at hdel
    have hacc := Accounted.setPause d (d.pauserehash + 1)
    have hkeeps := put_keepsOthers hs hc hlt hd (hstored.wf.setPause (d.pauserehash + 1))
      hstored.pauseAutoResize hacc rfl
    have hget := kvstoreGetDict_put hs hlt hd hacc
    have hwf : Dict.WF ty { d with trace := [] } := hstored.wf.clearTrace
    obtain ⟨d', es, hd', hes, hbec⟩ := dictTwoPhaseUnlinkFree_spec env.canResize hwf hx
    have hacc' : Accounted { d with pauserehash := d.pauserehash + 1, trace := [] } d' :=
      (Accounted.of_sizeExp_eq rfl rfl rfl Iff.rfl).trans hbec.accounted
    have hget' := kvstoreGetDict_put hkeeps.shape (by rwa [hkeeps.toKeeps.numDicts]) hget hacc'
    have hfilters := dictTwoPhaseUnlinkFree_filters hfull
      (hwf.setPause (d.pauserehash + 1)) hx hd'
    dsimp only at hdel
    rw [kvstoreDictTwoPhaseUnlinkFree, hget, bind_some] at hdel
    have hdel' := (congrArg (bind · _) hd').symm.trans hdel
    obtain ⟨kvs1, hkvs1, heq⟩ := map_eq_some_iff.mp hdel'
    have hget1 := congrFun (kvstoreGetDict_cumulativeKeyCountAdd hkvs1) didx
    rw [hget'] at hget1
    have hsame : d'.pauserehash = d.pauserehash := hbec.pauserehash
    rw [freeDictIfNeeded_of_paused env hget1 (by rw [← hsame] at hpause; exact hpause)] at heq
    cases heq
    exact ⟨_, hget1, hsame, hfilters.ht0, hfilters.ht1⟩

/-! ### A call -/

/-- What an iterator relies on. -/
structure KvstoreIterator.Valid (ty : DictType K S) (kvs : Kvstore S V) (it : KvstoreIterator K) :
    Prop where
  shape : kvs.Shape ty
  counts : kvs.CountsKeys
  /-- The current dict exists, and its rehashing is paused. -/
  current : it.didx = -1 ∧ it.dict = none ∨
    ∃ (i : ℕ) (d : Dict S V), it.didx = i ∧ it.dict = some i ∧ i < kvs.numDicts ∧
      kvstoreGetDict kvs i = some d ∧ it.di.Valid ty d ∧ 0 ≤ it.di.index ∧ 0 < d.pauserehash
  next : it.nextDidx = -1 ∨ ∃ j : ℕ, it.nextDidx = j ∧ j < kvs.numDicts ∧ it.didx < j

omit [DecidableEq K] in
lemma kvstoreGetFirstNonEmptyDictIndex_spec (hc : kvs.CountsKeys) :
    (kvstoreGetFirstNonEmptyDictIndex kvs = some (-1) ∧
        ∀ j < kvs.numDicts, kvstoreDictSize kvs j = 0) ∨
      ∃ q < kvs.numDicts, kvstoreGetFirstNonEmptyDictIndex kvs = some (q : ℤ) ∧
        ∀ j < q, kvstoreDictSize kvs j = 0 := by
  have hsum := hc.keyCount
  rw [← Nat.cast_sum] at hsum
  rw [kvstoreGetFirstNonEmptyDictIndex]
  split_ifs with hzero hone
  · left
    rw [hzero, eq_comm, Nat.cast_eq_zero, Finset.sum_eq_zero_iff] at hsum
    exact ⟨rfl, fun j hj => hsum j (Finset.mem_range.mpr hj)⟩
  · exact .inr ⟨0, by omega, rfl, fun j hj => absurd hj (Nat.not_lt_zero j)⟩
  · right
    obtain ⟨ft, hft, hbits, hrep⟩ := hc.tree hone
    have hsize : ft.size = kvs.numDicts := by rw [FenwickTree.size, hbits, Kvstore.numDicts]
    have htotal : 0 < ft.total := by
      rw [hrep.total, hsize]
      omega
    obtain ⟨q, hq, hfind, -, hall⟩ := hrep.findFirstNonEmpty htotal
    rw [hft, bind_some, hfind]
    exact ⟨q, hsize ▸ hq, rfl, hall⟩

/-- The current dict is asked for its next entry. -/
lemma kvstoreIteratorDictNext_spec (hs : kvs.Shape ty) (hc : kvs.CountsKeys)
    (hlt : didx < kvs.numDicts) (hdict : it.dict = some didx)
    (hd : kvstoreGetDict kvs didx = some d) (hv : it.di.Valid ty d)
    (hpause : it.di.Unused ∨ 0 < d.pauserehash) :
    ∃ kvs' di' r d', kvstoreIteratorDictNext ty kvs it = some (kvs', { it with di := di' }, r) ∧
      kvs.KeepsOthers ty kvs' didx ∧ kvstoreGetDict kvs' didx = some d' ∧ 0 < d'.pauserehash ∧
      it.di.remaining ty d' = it.di.remaining ty d ∧ it.di.Advances ty d' di' r := by
  have hstored := hs.stored didx d hd
  obtain ⟨di', r, hnext, hadv⟩ := dictNext_spec hstored.wf hv.pointing
  obtain ⟨h0, h1⟩ := it.di.pausing_ht d
  have hacc : Accounted d (it.di.pausing d) := by
    rw [DictIterator.pausing]
    split_ifs
    · exact Accounted.setPause d _
    · exact Accounted.refl d
  have hauto : (it.di.pausing d).pauseAutoResize ≤ 0 := by
    rw [DictIterator.pausing]
    split_ifs
    all_goals exact hstored.pauseAutoResize
  have hpaused : 0 < (it.di.pausing d).pauserehash := by
    rw [DictIterator.pausing]
    split_ifs with hunused
    · exact Nat.succ_pos _
    · exact hpause.resolve_left hunused
  have hsize : dictSize (it.di.pausing d) = dictSize d := by
    rw [dictSize, dictSize, h0, h1]
  refine ⟨_, di', r, _, by rw [kvstoreIteratorDictNext, hdict, bind_some, hd, bind_some,
    hnext, map_some], put_keepsOthers hs hc hlt hd (it.di.pausing_wf hstored.wf) hauto hacc hsize,
    kvstoreGetDict_put hs hlt hd hacc, hpaused, ?_, ?_⟩
  · exact DictIterator.remaining_congr h0 h1 it.di
  · exact hadv.congr h0.symm h1.symm rfl

/-- Leaving the current dict. -/
lemma kvstoreIteratorLeave_spec (env : KvstoreEnv) (hv : it.Valid ty kvs) :
    ∃ kvs', kvstoreIteratorLeave env kvs it = some kvs' ∧ kvs.Keeps ty kvs' ∧
      ∀ j : ℕ, it.didx < j → kvstoreGetDict kvs' j = kvstoreGetDict kvs j := by
  rw [kvstoreIteratorLeave]
  rcases hv.current with ⟨hdidx, -⟩ | ⟨i, d, hdidx, hdict, hlt, hd, -, hindex, -⟩
  · rw [if_neg fun h => h.1 hdidx]
    exact ⟨kvs, rfl, .refl hv.shape hv.counts, fun _ _ => rfl⟩
  · have hslot : it.didx.toNat = i := by omega
    have hused : ¬ it.di.Unused := fun h => by have := h.1; omega
    have hstored := hv.shape.stored i d hd
    have hkeeps :=
      put_keepsOthers hv.shape hv.counts hlt hd (hstored.wf.setPause (d.pauserehash - 1))
      hstored.pauseAutoResize (Accounted.setPause d _) rfl
    have hfree := (freeDictIfNeeded_spec env hkeeps.shape hkeeps.counts
      (by rw [hkeeps.toKeeps.numDicts]; exact hlt) : _).1
    refine ⟨_, ?_, (hkeeps.trans hfree).toKeeps, fun j hj =>
      (hkeeps.trans hfree).others j (by omega)⟩
    have hreset : dictResetIterator d it.di = { d with pauserehash := d.pauserehash - 1 } :=
      if_neg hused
    rw [hslot, if_pos ⟨by omega, by rw [hd]; rfl⟩, if_neg hused, hdict, bind_some, hd,
      map_some, map_some, hreset]

lemma KvstoreIterator.remaining_eq (hdict : it.dict = some didx)
    (hd : kvstoreGetDict kvs didx = some d) : it.remaining ty kvs = it.di.remaining ty d := by
  rw [KvstoreIterator.remaining, hdict, bind_some, hd]
  rfl

variable {r : Option (DictEntry S V)}

/-- The iterator has returned an entry of dict `didx`. -/
lemma KvstoreIterator.valid_of_advances {di' : DictIterator K}
    {d' : Dict S V} (hkeeps : kvs.KeepsOthers ty kvs' didx) (hlt : didx < kvs.numDicts)
    (hdidx : it.didx = didx) (hdict : it.dict = some didx)
    (hd' : kvstoreGetDict kvs' didx = some d') (hpause : 0 < d'.pauserehash)
    (hadv : it.di.Advances ty d' di' r)
    (hnext : it.nextDidx = -1 ∨ ∃ j : ℕ, it.nextDidx = j ∧ j < kvs.numDicts ∧ it.didx < j) :
    KvstoreIterator.Valid ty kvs' { it with di := di' } ∧
      KvstoreIterator.remaining ty kvs' { it with di := di' } = (it.di.remaining ty d').tail := by
  rw [← hkeeps.toKeeps.numDicts] at hlt hnext
  refine ⟨⟨hkeeps.shape, hkeeps.counts,
    .inr ⟨didx, d', hdidx, hdict, hlt, hd', hadv.valid, hadv.index, hpause⟩, hnext⟩, ?_⟩
  rw [KvstoreIterator.remaining, hdict, bind_some, hd']
  exact hadv.remaining

inductive KvstoreIterator.Moves (ty : DictType K S) (kvs kvs' : Kvstore S V)
    (it it' : KvstoreIterator K) : Option (DictEntry S V) → Prop
  /-- The first of the remaining entries of the current dict is returned. -/
  | stays {i : ℕ} {e : DictEntry S V} {rest : List (DictEntry S V)} (hdidx : it.didx = i)
      (hrem : it.remaining ty kvs = e :: rest) (hvalid : it'.Valid ty kvs') (hdidx' : it'.didx = i)
      (hnext' : it'.nextDidx = it.nextDidx) (hrem' : it'.remaining ty kvs' = rest)
      (hentry' : it'.di.entry = some (ty.entryKey e)) : Moves ty kvs kvs' it it' (some e)
  /-- The first entry of the next dict is returned. -/
  | enters {j : ℕ} {d : Dict S V} {e : DictEntry S V} {rest : List (DictEntry S V)}
      (hrem : it.remaining ty kvs = []) (hnext : it.nextDidx = j)
      (hd : kvstoreGetDict kvs j = some d) (hentries : d.entries = e :: rest)
      (hvalid : it'.Valid ty kvs') (hdidx' : it'.didx = j)
      (hnext' : ∀ i, j < i → i < kvs.numDicts → kvstoreDictSize kvs i ≠ 0 →
        ∃ q : ℕ, it'.nextDidx = q ∧ q ≤ i)
      (hrem' : it'.remaining ty kvs' = rest) (hentry' : it'.di.entry = some (ty.entryKey e)) :
      Moves ty kvs kvs' it it' (some e)
  /-- Nothing is returned: there is no next dict, or it has no key. -/
  | ends (hrem : it.remaining ty kvs = [])
      (hnext : ∀ j : ℕ, it.nextDidx = j → kvstoreDictSize kvs j = 0) : Moves ty kvs kvs' it it' none

/-- Going to the next dict. -/
lemma kvstoreIteratorNextDict_spec (env : KvstoreEnv) (hv : it.Valid ty kvs) {j : ℕ}
    (hj : it.nextDidx = j) (hjlt : j < kvs.numDicts) (hlt : it.didx < j) :
    ∃ kvs' next, kvstoreIteratorNextDict env kvs it = some (kvs',
        { it with didx := j, nextDidx := next }, (kvstoreGetDict kvs j).map fun _ => j) ∧
      kvs.Keeps ty kvs' ∧ kvstoreGetDict kvs' j = kvstoreGetDict kvs j ∧
      (next = -1 ∨ ∃ q : ℕ, next = q ∧ q < kvs.numDicts ∧ (j : ℤ) < q) ∧
      ∀ i, j < i → i < kvs.numDicts → kvstoreDictSize kvs i ≠ 0 → ∃ q : ℕ, next = q ∧ q ≤ i := by
  obtain ⟨kvs', hleave, hkeeps, hothers⟩ := kvstoreIteratorLeave_spec env hv
  have hslot : it.nextDidx.toNat = j := by omega
  have hget := hothers j hlt
  have hsame : ∀ i, j < i → kvstoreDictSize kvs' i = kvstoreDictSize kvs i := by
    intro i hi
    rw [kvstoreDictSize, kvstoreDictSize, hothers i (by omega)]
  have hjlt' : j < kvs'.numDicts := hjlt.trans_eq hkeeps.numDicts.symm
  have hresult : ∀ next, kvstoreGetNextNonEmptyDictIndex kvs' j = some next →
      kvstoreIteratorNextDict env kvs it = some (kvs', { it with didx := j, nextDidx := next },
        (kvstoreGetDict kvs j).map fun _ => j) := by
    intro next hnext
    rw [kvstoreIteratorNextDict, if_neg (by omega), hleave, bind_some, hslot, hnext,
      map_some, hget, hj]
  rcases kvstoreGetNextNonEmptyDictIndex_spec hkeeps.counts hjlt' with
    ⟨hnext, hall⟩ | ⟨q, hq, hqlt, hnext, -, hall⟩
  · refine ⟨kvs', -1, hresult _ hnext, hkeeps, hget, .inl rfl, fun i hji hi hne => ?_⟩
    exact absurd (hall i hji (hi.trans_eq hkeeps.numDicts.symm)) (by rwa [hsame i hji])
  · refine ⟨kvs', q, hresult _ hnext, hkeeps, hget,
      .inr ⟨q, rfl, hqlt.trans_eq hkeeps.numDicts, by omega⟩, fun i hji hi hne => ⟨q, rfl, ?_⟩⟩
    by_contra hgt
    exact absurd (hall i hji (by omega)) (by rwa [hsame i hji])

/-- The end of a call, after the current dict is exhausted. -/
lemma kvstoreIteratorNext_leave (env : KvstoreEnv) (hv : it.Valid ty kvs) :
    ∃ kvs' it' r, (kvstoreIteratorNextDict env kvs it).bind (fun n =>
        if n.2.2.isSome then
          kvstoreIteratorDictNext ty n.1 { n.2.1 with dict := n.2.2, di := dictInitSafeIterator }
        else some (n.1, n.2.1, none)) = some (kvs', it', r) ∧
      (it.remaining ty kvs = [] → it.Moves ty kvs kvs' it' r) := by
  rcases hv.next with hnone | ⟨j, hj, hjlt, hlt⟩
  · refine ⟨kvs, it, none, by rw [kvstoreIteratorNextDict, if_pos hnone]; rfl, fun hrem => ?_⟩
    exact .ends hrem fun j hj => absurd (hj.symm.trans hnone) (by omega)
  · obtain ⟨kvs1, next, hnext, hkeeps, hget, hrange, hall⟩ :=
      kvstoreIteratorNextDict_spec env hv hj hjlt hlt
    rw [hnext]
    cases hd : kvstoreGetDict kvs j with
    | none =>
      refine ⟨kvs1, _, none, rfl, fun hrem => .ends hrem fun j' hj' => ?_⟩
      obtain rfl : j = j' := by omega
      rw [kvstoreDictSize, hd]
      rfl
    | some d =>
      rw [hd] at hget
      obtain ⟨hinit, hentries⟩ := @dictInitSafeIterator_spec K S V ty _ d
      have hjlt1 := hjlt.trans_eq hkeeps.numDicts.symm
      let it1 : KvstoreIterator K := ⟨j, next, some j, dictInitSafeIterator⟩
      have hdict1 : it1.dict = some j := rfl
      obtain ⟨kvs2, di', r, d', hdn, hkeeps2, hd', hpause, hrem', hadv⟩ :=
        kvstoreIteratorDictNext_spec hkeeps.shape hkeeps.counts hjlt1 hdict1 hget hinit
          (.inl ⟨rfl, rfl⟩)
      refine ⟨kvs2, _, r, hdn, fun hrem => ?_⟩
      have hrem1 : it1.di.remaining ty d' = d.entries := hrem'.trans hentries
      have hresult := hadv.result
      rw [hrem1] at hresult
      cases hes : d.entries with
      | nil =>
        rw [hes] at hresult
        subst hresult
        refine .ends hrem fun j' hj' => ?_
        obtain rfl : j = j' := by omega
        rw [kvstoreDictSize, hd, map_some, getD_some,
          (hv.shape.stored j d hd).wf.dictSize_eq, hes, length_nil]
      | cons e rest =>
        rw [hes] at hresult
        subst hresult
        have hnextRange : it1.nextDidx = -1 ∨
            ∃ q : ℕ, it1.nextDidx = q ∧ q < kvs1.numDicts ∧ it1.didx < q := by
          rw [hkeeps.numDicts]
          exact hrange
        obtain ⟨hvalid, htail⟩ := KvstoreIterator.valid_of_advances hkeeps2 hjlt1 rfl rfl hd' hpause
          hadv hnextRange
        refine .enters hrem hj hd hes hvalid rfl hall ?_ hadv.entry
        rw [htail, hrem1, hes, tail_cons]

variable {it' : KvstoreIterator K}

/-- The exhausted current dict does not matter for what comes then. -/
lemma KvstoreIterator.Moves.of_exhausted {it1 : KvstoreIterator K} {kvs1 : Kvstore S V}
    (hmoves : it1.Moves ty kvs1 kvs' it' r)
    (hkeeps : kvs.KeepsOthers ty kvs1 didx) (hv : it.Valid ty kvs) (hdidx : it.didx = didx)
    (hnext1 : it1.nextDidx = it.nextDidx) (hrem : it.remaining ty kvs = [])
    (hrem1 : it1.remaining ty kvs1 = []) : it.Moves ty kvs kvs' it' r := by
  have hlater : ∀ j : ℕ, it.nextDidx = j → didx < j := by
    intro j hj
    rcases hv.next with hnone | ⟨q, hq, -, hlt⟩
    · omega
    · omega
  have hsize : ∀ j, didx < j → kvstoreDictSize kvs1 j = kvstoreDictSize kvs j := by
    intro j hj
    rw [kvstoreDictSize, kvstoreDictSize, hkeeps.others j (by omega)]
  cases hmoves with
  | stays _ hrem' =>
    rw [hrem1] at hrem'
    exact absurd hrem' (by simp)
  | enters _ hnext hd hentries hvalid hdidx' hnext' hrem' hentry' =>
    have hj := hlater _ (hnext1.symm.trans hnext)
    rw [hkeeps.others _ (by omega)] at hd
    refine .enters hrem (hnext1.symm.trans hnext) hd hentries hvalid hdidx' ?_ hrem' hentry'
    intro i hji hi hne
    refine hnext' i hji (hi.trans_eq hkeeps.toKeeps.numDicts.symm) ?_
    rwa [hsize i (by omega)]
  | ends _ hnext =>
    refine .ends hrem fun j hj => ?_
    rw [← hsize j (hlater j hj)]
    exact hnext j (hnext1.trans hj)

lemma kvstoreIteratorNext_spec (env : KvstoreEnv) (hv : it.Valid ty kvs) :
    ∃ kvs' it' r, kvstoreIteratorNext ty env kvs it = some (kvs', it', r) ∧
      it.Moves ty kvs kvs' it' r := by
  rw [kvstoreIteratorNext]
  rcases hv.current with ⟨hdidx, hdict⟩ | ⟨i, d, hdidx, hdict, hlt, hd, hdi, hindex, hpause⟩
  · have hrem : it.remaining ty kvs = [] := by
      rw [KvstoreIterator.remaining, hdict]
      rfl
    obtain ⟨kvs', it', r, hnext, hmoves⟩ := kvstoreIteratorNext_leave env hv
    rw [hdict]
    exact ⟨kvs', it', r, hnext, hmoves hrem⟩
  · obtain ⟨kvs1, di', r, d', hdn, hkeeps, hd', hpause', hrem', hadv⟩ :=
      kvstoreIteratorDictNext_spec hv.shape hv.counts hlt hdict hd hdi (.inr hpause)
    obtain ⟨hvalid, htail⟩ := KvstoreIterator.valid_of_advances hkeeps hlt hdidx hdict
      hd' hpause' hadv
      hv.next
    have hrem : it.remaining ty kvs = it.di.remaining ty d :=
      KvstoreIterator.remaining_eq hdict hd
    rw [hrem'] at htail
    have hresult := hadv.result
    rw [hrem'] at hresult
    have hsome : it.dict.isSome = true := by rw [hdict]; rfl
    rw [if_pos hsome, hdn]
    cases hes : it.di.remaining ty d with
    | cons e rest =>
      rw [hes] at hresult htail
      subst hresult
      refine ⟨kvs1, _, some e, rfl, .stays hdidx (hrem.trans hes) hvalid hdidx rfl htail hadv.entry⟩
    | nil =>
      rw [hes] at hresult htail
      subst hresult
      obtain ⟨kvs', it', r, hnext, hmoves⟩ := kvstoreIteratorNext_leave env hvalid
      exact ⟨kvs', it', r, hnext,
        (hmoves htail).of_exhausted hkeeps hv hdidx rfl (hrem.trans hes) htail⟩

/-! ### Operations between the calls -/

/-- What the caller may do with dict `i` while the iterator is in dict `it.didx`: anything with
another dict, and deleting the entry with key `k` that was returned last. -/
def KvstoreIterator.Tolerates (it : KvstoreIterator K) (last : Option (ℕ × K))
    (op : KvstoreOp K S V) (i : ℕ) : Prop :=
  (i : ℤ) ≠ it.didx ∨
    ∃ r, r ∈ last ∧ r.1 = i ∧ (op = .delete i r.2 ∨ op = .twoPhaseUnlink i r.2)

instance [DecidableEq S] [DecidableEq V] (it : KvstoreIterator K) (last : Option (ℕ × K))
    (op : KvstoreOp K S V) (i : ℕ) : Decidable (it.Tolerates last op i) :=
  inferInstanceAs (Decidable (_ ∨ ∃ r, r ∈ last ∧ _))

/-- The current dict and the rest of the iterator are as before. -/
lemma KvstoreIterator.Valid.congr (hv : it.Valid ty kvs) (hkeeps : kvs.Keeps ty kvs')
    (hcurrent : ∀ (i : ℕ) (d : Dict S V), it.didx = i → kvstoreGetDict kvs i = some d →
      it.di.Valid ty d → 0 < d.pauserehash → ∃ d', kvstoreGetDict kvs' i = some d' ∧
        it.di.Valid ty d' ∧ it.di.remaining ty d' = it.di.remaining ty d ∧ 0 < d'.pauserehash) :
    it.Valid ty kvs' ∧ it.remaining ty kvs' = it.remaining ty kvs := by
  have hnext := hv.next
  rw [← hkeeps.numDicts] at hnext
  rcases hv.current with ⟨hdidx, hdict⟩ | ⟨i, d, hdidx, hdict, hlt, hd, hdi, hindex, hpause⟩
  · refine ⟨⟨hkeeps.shape, hkeeps.counts, .inl ⟨hdidx, hdict⟩, hnext⟩, ?_⟩
    rw [KvstoreIterator.remaining, KvstoreIterator.remaining, hdict]
    rfl
  · obtain ⟨d', hd', hdi', hrem, hpause'⟩ := hcurrent i d hdidx hd hdi hpause
    rw [← hkeeps.numDicts] at hlt
    refine ⟨⟨hkeeps.shape, hkeeps.counts,
      .inr ⟨i, d', hdidx, hdict, hlt, hd', hdi', hindex, hpause'⟩, hnext⟩, ?_⟩
    rw [KvstoreIterator.remaining_eq hdict hd', KvstoreIterator.remaining_eq hdict hd, hrem]

/-- An operation between two calls. -/
lemma KvstoreIterator.Valid.op (hfull : ty.forceFullRehash = false) (hv : it.Valid ty kvs)
    {last : Option (ℕ × K)} (hlast : ∀ i k, last = some (i, k) → it.di.entry = some k)
    (env : KvstoreEnv) {op : KvstoreOp K S V} {i : ℕ} (hi : op.didx? = some i)
    (hlt : i < kvs.numDicts) (hop : it.Tolerates last op i) :
    ∃ kvs', kvstoreStep ty kvs (env, op) = some kvs' ∧ it.Valid ty kvs' ∧
      it.remaining ty kvs' = it.remaining ty kvs := by
  have hrange : op.InRange kvs.numDicts := by
    intro i' hi'
    obtain rfl : i = i' := some.inj (hi.symm.trans hi')
    exact hlt
  obtain ⟨kvs', hkvs', hkeeps, hothers⟩ := kvstoreStep_spec hv.shape hv.counts env hrange
  refine ⟨kvs', hkvs', hv.congr hkeeps ?_⟩
  intro j d hj hd hdi hpause
  rcases hop with hne | ⟨⟨i', k⟩, hk, hi', hdel⟩
  · refine ⟨d, ?_, hdi, rfl, hpause⟩
    rw [(hothers i hi).others j (by omega), hd]
  · obtain rfl : i' = i := hi'
    by_cases hij : i' = j
    · subst hij
      have hdrops : kvs'.DropsEntry ty i' d k := by
        rcases hdel with rfl | rfl
        · obtain ⟨⟨kvs1, b⟩, hdel, heq⟩ := map_eq_some_iff.mp hkvs'
          obtain rfl : kvs1 = kvs' := heq
          exact kvstoreDictDelete_paused hfull hv.shape hlt hd hpause hdel
        · exact kvstoreDictTwoPhaseUnlink_paused hfull hv.shape hv.counts hlt hd hpause hkvs'
      obtain ⟨d', hd', hsame, hfilters⟩ := hdrops
      obtain ⟨hdi', hrem⟩ := hdi.filters (hlast i' k hk) hfilters
      exact ⟨d', hd', hdi', hrem, by rw [hsame]; exact hpause⟩
    · exact ⟨d, by rw [(hothers i' hi).others j (Ne.symm hij), hd], hdi, rfl, hpause⟩

/-! ### Whole iterations -/

/-- An iteration: the kvstore, the iterator, and the entries returned so far with the index of their
dict. -/
structure KvstoreIteration (K S V : Type*) where
  kvs : Kvstore S V
  it : KvstoreIterator K
  returned : List (ℕ × DictEntry S V)
  /-- A call has returned `NULL`. -/
  finished : Bool

/-- A step of an iteration: a call of `kvstoreIteratorNext`, or an operation of the caller. -/
inductive KvstoreIterOp (K S V : Type*)
  | next (env : KvstoreEnv)
  | op (env : KvstoreEnv) (op : KvstoreOp K S V)

/-- Execute one step. -/
def kvstoreIterStep (ty : DictType K S) (s : KvstoreIteration K S V) :
    KvstoreIterOp K S V → Option (KvstoreIteration K S V)
  | .next env =>
    (kvstoreIteratorNext ty env s.kvs s.it).map fun r =>
      ⟨r.1, r.2.1, s.returned ++ (r.2.2.map fun e => (r.2.1.didx.toNat, e)).toList, r.2.2.isNone⟩
  | .op env op => (kvstoreStep ty s.kvs (env, op)).map fun kvs => { s with kvs := kvs }

namespace KvstoreIteration

/-- What the caller may do: call `kvstoreIteratorNext` until it returns `NULL`, and between the
calls use the other dicts or delete the entry just returned. -/
def Allowed (ty : DictType K S) (s : KvstoreIteration K S V) : KvstoreIterOp K S V → Prop
  | .next _ => s.finished = false
  | .op _ op => s.finished = false ∧ ∃ i, i ∈ op.didx? ∧ i < s.kvs.numDicts ∧
      s.it.Tolerates (s.returned.getLast?.map fun r => (r.1, ty.entryKey r.2)) op i

instance [DecidableEq S] [DecidableEq V] (s : KvstoreIteration K S V) :
    ∀ op, Decidable (s.Allowed ty op)
  | .next _ => inferInstanceAs (Decidable (s.finished = false))
  | .op _ op => inferInstanceAs (Decidable (s.finished = false ∧ ∃ i, i ∈ op.didx? ∧ _))

/-- When the iterator leaves the current dict, the dict it goes to has a key. -/
def NextDictKept (ty : DictType K S) (s : KvstoreIteration K S V) : KvstoreIterOp K S V → Prop
  | .next _ => s.it.remaining ty s.kvs = [] → s.it.nextDidx ≠ -1 →
      kvstoreDictSize s.kvs s.it.nextDidx.toNat ≠ 0
  | .op _ _ => True

instance [DecidableEq S] [DecidableEq V] (s : KvstoreIteration K S V) :
    ∀ op, Decidable (s.NextDictKept ty op)
  | .next _ => inferInstanceAs (Decidable (_ = [] → _ → _))
  | .op _ _ => isTrue trivial

/-- Key `k` of dict `target` is present when `kvstoreIteratorNext` is called. -/
def HoldsAtNext (ty : DictType K S) (target : ℕ) (k : K) (s : KvstoreIteration K S V) :
    KvstoreIterOp K S V → Prop
  | .next _ => s.kvs.Holds ty target k
  | .op _ _ => True

instance (target : ℕ) (k : K) (s : KvstoreIteration K S V) :
    ∀ op, Decidable (s.HoldsAtNext ty target k op)
  | .next _ => inferInstanceAs (Decidable (s.kvs.Holds ty target k))
  | .op _ _ => isTrue trivial

/-- How often key `k` of dict `target` has been returned. -/
def timesReturned (ty : DictType K S) (target : ℕ) (k : K) (s : KvstoreIteration K S V) : ℕ :=
  s.returned.countP fun r => decide (r.1 = target ∧ ty.entryKey r.2 = k)

/-- The invariant of an iteration. -/
structure Inv (ty : DictType K S) (s : KvstoreIteration K S V) : Prop where
  valid : s.it.Valid ty s.kvs
  /-- The iterator points to the entry returned last. -/
  last : ∀ i e, s.returned.getLast? = some (i, e) →
    s.it.didx = i ∧ s.it.di.entry = some (ty.entryKey e)

/-- Where the iteration is with respect to a key that is present: before its dict, in it, or behind.
-/
inductive Tracks (ty : DictType K S) (target : ℕ) (k : K) (s : KvstoreIteration K S V) : Prop
  | before {j : ℕ} (hdidx : s.it.didx < target) (hnext : s.it.nextDidx = j) (hj : j ≤ target)
      (htimes : s.timesReturned ty target k = 0)
  | inside (hdidx : s.it.didx = target) (htimes : s.timesReturned ty target k +
      (s.it.remaining ty s.kvs).countP (fun e => decide (ty.entryKey e = k)) = 1)
  | behind (hdidx : target < s.it.didx) (htimes : s.timesReturned ty target k = 1)

variable {s : KvstoreIteration K S V} {target : ℕ} {k : K}

/-- One more entry is returned. -/
lemma timesReturned_append (s : KvstoreIteration K S V) (kvs' : Kvstore S V)
    (it' : KvstoreIterator K) (i : ℕ) (e : DictEntry S V) (b : Bool) :
    timesReturned ty target k ⟨kvs', it', s.returned ++ [(i, e)], b⟩ =
      s.timesReturned ty target k + if i = target ∧ ty.entryKey e = k then 1 else 0 := by
  rw [timesReturned, timesReturned, countP_append, countP_singleton]
  simp only [decide_eq_true_eq]

/-- A present key is the key of one entry of its dict. -/
lemma countP_entries_of_holds (hs : kvs.Shape ty) (hk : kvs.Holds ty target k) {d : Dict S V}
    (hd : kvstoreGetDict kvs target = some d) :
    d.entries.countP (fun e => decide (ty.entryKey e = k)) = 1 := by
  obtain ⟨d', hd', hlook⟩ := hk
  obtain rfl : d = d' := some.inj (hd.symm.trans hd')
  have hwf := (hs.stored target d hd).wf
  obtain ⟨x, hx⟩ := isSome_iff_exists.mp hlook
  obtain ⟨hmem, rfl⟩ := hwf.lookup_eq_some.mp hx
  have hcount : (d.entries.map ty.entryKey).count (ty.entryKey x) = 1 :=
    count_eq_one_of_mem hwf.nodup (mem_map_of_mem hmem)
  rw [count, countP_map] at hcount
  rw [← hcount]
  exact countP_congr fun y _ => by simp

variable {rest : List (DictEntry S V)}

lemma Tracks.of_stays {i : ℕ} {e : DictEntry S V} (h : s.Tracks ty target k) (hdidx : s.it.didx = i)
    (hrem : s.it.remaining ty s.kvs = e :: rest) (hdidx' : it'.didx = i)
    (hnext' : it'.nextDidx = s.it.nextDidx) (hrem' : it'.remaining ty kvs' = rest) (b : Bool) :
    Tracks ty target k ⟨kvs', it', s.returned ++ [(i, e)], b⟩ := by
  cases h with
  | before hlt hnext hj htimes =>
    refine .before (hdidx'.trans_lt (hdidx ▸ hlt)) (hnext'.trans hnext) hj ?_
    rw [timesReturned_append, htimes, if_neg fun h => by omega]
  | inside heq htimes =>
    refine .inside (hdidx'.trans (hdidx ▸ heq)) ?_
    have hi : i = target := by omega
    rw [hrem, countP_cons] at htimes
    rw [timesReturned_append]
    rw [hrem']
    simp only [hi, true_and, decide_eq_true_eq] at htimes ⊢
    omega
  | behind hlt htimes =>
    refine .behind (hdidx' ▸ hdidx ▸ hlt) ?_
    rw [timesReturned_append, htimes, if_neg fun h => by omega]

lemma Tracks.of_enters {j : ℕ} {d : Dict S V} {e : DictEntry S V}
    (h : s.Tracks ty target k) (hv : s.it.Valid ty s.kvs)
    (hk : s.kvs.Holds ty target k) (hrem : s.it.remaining ty s.kvs = [])
    (hnext : s.it.nextDidx = j) (hd : kvstoreGetDict s.kvs j = some d)
    (hentries : d.entries = e :: rest) (hdidx' : it'.didx = j)
    (hnext' : ∀ i, j < i → i < s.kvs.numDicts → kvstoreDictSize s.kvs i ≠ 0 → ∃ q : ℕ,
      it'.nextDidx = q ∧ q ≤ i) (hrem' : it'.remaining ty kvs' = rest) (b : Bool) :
    Tracks ty target k ⟨kvs', it', s.returned ++ [(j, e)], b⟩ := by
  have hlater : s.it.didx < j := by
    rcases hv.next with hnone | ⟨q, hq, -, hlt⟩
    · omega
    · omega
  obtain ⟨htarget, hne⟩ := hk.spec hv.shape
  cases h with
  | before hlt hnext0 hj htimes =>
    rcases (show j ≤ target by omega).lt_or_eq with hjt | hjt
    · obtain ⟨q, hq, hqt⟩ := hnext' target hjt htarget hne
      refine .before (hdidx'.trans_lt (by omega)) hq hqt ?_
      rw [timesReturned_append, htimes, if_neg fun h => by omega]
    · subst hjt
      refine .inside hdidx' ?_
      have hcount := countP_entries_of_holds hv.shape hk hd
      rw [hentries, countP_cons] at hcount
      rw [timesReturned_append]
      rw [hrem']
      simp only [true_and, decide_eq_true_eq] at hcount ⊢
      omega
  | inside heq htimes =>
    rw [hrem, countP_nil, Nat.add_zero] at htimes
    refine .behind (hdidx' ▸ (by omega)) ?_
    rw [timesReturned_append, htimes, if_neg fun h => by omega]
  | behind hlt htimes =>
    refine .behind (hdidx' ▸ (by omega)) ?_
    rw [timesReturned_append, htimes, if_neg fun h => by omega]

/-- Step lemma for a call. -/
lemma step_next (h : s.Inv ty) (env : KvstoreEnv) :
    ∃ s', kvstoreIterStep ty s (.next env) = some s' ∧ (s'.finished = false → s'.Inv ty) ∧
      ∀ target k, s.NextDictKept ty (.next env : KvstoreIterOp K S V) → s.kvs.Holds ty target k →
        s.Tracks ty target k → (s'.finished = false → s'.Tracks ty target k) ∧
          (s'.finished = true → s'.timesReturned ty target k = 1) := by
  obtain ⟨kvs', it', r, hcall, hmoves⟩ := kvstoreIteratorNext_spec env h.valid
  refine ⟨_, by rw [kvstoreIterStep, hcall, map_some], ?_⟩
  have hlast : ∀ (e : DictEntry S V) (i : ℕ), it'.didx = i → it'.di.entry = some (ty.entryKey e) →
      ∀ i' e', (s.returned ++ [(it'.didx.toNat, e)]).getLast? = some (i', e') →
        it'.didx = i' ∧ it'.di.entry = some (ty.entryKey e') := by
    intro e i hi hentry i' e' hlast
    rw [getLast?_append, getLast?_singleton] at hlast
    obtain ⟨rfl, rfl⟩ := Prod.ext_iff.mp (some.inj hlast)
    exact ⟨by dsimp only; omega, hentry⟩
  cases hmoves with
  | @stays i e rest hdidx hrem hvalid hdidx' hnext' hrem' hentry' =>
    refine ⟨fun _ => ⟨hvalid, hlast e i hdidx' hentry'⟩, fun target k _ _ htracks =>
      ⟨fun _ => ?_, ?_⟩⟩
    · have hslot : it'.didx.toNat = i := by omega
      rw [hslot]
      exact htracks.of_stays hdidx hrem hdidx' hnext' hrem' _
    · exact fun hfin => absurd hfin (by simp)
  | @enters j d e rest hrem hnext hd hentries hvalid hdidx' hnext' hrem' hentry' =>
    refine ⟨fun _ => ⟨hvalid, hlast e j hdidx' hentry'⟩, fun target k _ hk htracks =>
      ⟨fun _ => ?_, ?_⟩⟩
    · have hslot : it'.didx.toNat = j := by omega
      rw [hslot]
      exact htracks.of_enters h.valid hk hrem hnext hd hentries hdidx' hnext' hrem' _
    · exact fun hfin => absurd hfin (by simp)
  | ends hrem hnext =>
    refine ⟨fun hfin => absurd hfin (by simp), fun target k hkept _ htracks => ⟨?_, fun _ => ?_⟩⟩
    · exact fun hfin => absurd hfin (by simp)
    · rw [timesReturned, map_none, toList_none, append_nil]
      cases htracks with
      | @before j hlt hj hle htimes =>
        have hne := hkept hrem (by omega)
        rw [show s.it.nextDidx.toNat = j by omega] at hne
        exact absurd (hnext j hj) hne
      | inside heq htimes =>
        rw [hrem] at htimes
        exact htimes
      | behind hlt htimes => exact htimes

lemma step_op (hfull : ty.forceFullRehash = false) (h : s.Inv ty)
    {op : KvstoreOp K S V} (hop : s.Allowed ty (.op env op)) :
    ∃ s', kvstoreIterStep ty s (.op env op) = some s' ∧ s'.Inv ty ∧ s'.finished = s.finished ∧
      ∀ target k, s.Tracks ty target k → s'.Tracks ty target k := by
  obtain ⟨-, i, hi, hlt, htol⟩ := hop
  have hlast : ∀ i k, (s.returned.getLast?.map fun r => (r.1, ty.entryKey r.2)) = some (i, k) →
      s.it.di.entry = some k := by
    intro i k hk
    obtain ⟨⟨i', e⟩, hmem, heq⟩ := map_eq_some_iff.mp hk
    obtain ⟨-, rfl⟩ := Prod.ext_iff.mp heq
    exact (h.last i' e hmem).2
  obtain ⟨kvs', hkvs', hvalid, hrem⟩ := h.valid.op hfull hlast env hi hlt htol
  refine ⟨{ s with kvs := kvs' }, by rw [kvstoreIterStep, hkvs', map_some], ⟨hvalid, h.last⟩,
    rfl, fun target k htracks => ?_⟩
  cases htracks with
  | before hlt hnext hj htimes => exact .before hlt hnext hj htimes
  | inside heq htimes => exact .inside heq (by rw [← hrem] at htimes; exact htimes)
  | behind hlt htimes => exact .behind hlt htimes

variable {op : KvstoreIterOp K S V}

lemma step_spec (hfull : ty.forceFullRehash = false) (hop : s.Allowed ty op) (h : s.Inv ty) :
    ∃ s', kvstoreIterStep ty s op = some s' ∧ (s'.finished = false → s'.Inv ty) ∧
      ∀ target k, s.NextDictKept ty op → s.HoldsAtNext ty target k op → s.Tracks ty target k →
        (s'.finished = false → s'.Tracks ty target k) ∧
          (s'.finished = true → s'.timesReturned ty target k = 1) := by
  cases op with
  | next env => exact step_next h env
  | op env op =>
    obtain ⟨s', hs', hinv, hfin, htracks⟩ := step_op hfull h hop
    refine ⟨s', hs', fun _ => hinv, fun target k _ _ ht =>
      ⟨fun _ => htracks target k ht, fun hfin' => ?_⟩⟩
    rw [hfin, hop.1] at hfin'
    exact absurd hfin' (by simp)

omit [DecidableEq K] in
lemma Allowed.unfinished (hop : s.Allowed ty op) : s.finished = false := by
  cases op with
  | next env => exact hop
  | op env op => exact hop.1

end KvstoreIteration

/-- A new iterator. -/
lemma kvstoreIteratorInit_spec (hs : kvs.Shape ty) (hc : kvs.CountsKeys) :
    ∃ it : KvstoreIterator K, kvstoreIteratorInit kvs = some it ∧
      KvstoreIteration.Inv ty ⟨kvs, it, [], false⟩ ∧ ∀ target k, kvs.Holds ty target k →
        KvstoreIteration.Tracks ty target k ⟨kvs, it, [], false⟩ := by
  have hlast : ∀ (it : KvstoreIterator K) (i : ℕ) (e : DictEntry S V),
      ([] : List (ℕ × DictEntry S V)).getLast? = some (i, e) →
        it.didx = i ∧ it.di.entry = some (ty.entryKey e) :=
    fun it i e h => absurd h (by simp)
  rcases kvstoreGetFirstNonEmptyDictIndex_spec hc with ⟨hfirst, hall⟩ | ⟨q, hq, hfirst, hall⟩
  · refine ⟨_, by rw [kvstoreIteratorInit, hfirst, map_some],
      ⟨⟨hs, hc, .inl ⟨rfl, rfl⟩, .inl rfl⟩, hlast _⟩, fun target k hk => ?_⟩
    obtain ⟨hlt, hne⟩ := hk.spec hs
    exact absurd (hall target hlt) hne
  · refine ⟨_, by rw [kvstoreIteratorInit, hfirst, map_some],
      ⟨⟨hs, hc, .inl ⟨rfl, rfl⟩, .inr ⟨q, rfl, hq, by dsimp only; omega⟩⟩, hlast _⟩,
      fun target k hk => ?_⟩
    obtain ⟨hlt, hne⟩ := hk.spec hs
    refine .before (by dsimp only; omega) rfl ?_ rfl
    by_contra hgt
    exact hne (hall target (by omega))

/-- **Completeness of `kvstoreIterator`.**  The kvstore is reached by any operations, and its dict
type does not rehash a dict at once when it is resized. In every iteration during which the caller
uses the other dicts in any way and deletes entries just returned, no assertion fails and no pointer
dangles. If the dict that the iterator goes to has a key whenever it leaves a dict, then an
iteration that has come to its end has returned every key that was present all the time exactly
once. -/
theorem kvstoreIterator_complete (ty : DictType K S) (hfull : ty.forceFullRehash = false) {bits : ℕ}
    (hbits : bits ≤ 16) (onDemand free onDemand' free' : Bool) {ops₀ : List (KvstorePairOp K S V)}
    (hallowed₀ : RunSatisfies (kvstorePairStep ty) (fun s op => op.Allowed s)
      (kvstorePairCreate bits onDemand free onDemand' free') ops₀) {kvs kvs₂ : Kvstore S V}
    (hkvs : runSteps (kvstorePairStep ty) (kvstorePairCreate bits onDemand free onDemand' free')
      ops₀ = some (kvs, kvs₂)) :
    ∃ it, kvstoreIteratorInit kvs = some it ∧ ∀ ops,
      RunSatisfies (kvstoreIterStep ty) (KvstoreIteration.Allowed ty) ⟨kvs, it, [], false⟩ ops →
      ∃ s, runSteps (kvstoreIterStep ty) ⟨kvs, it, [], false⟩ ops = some s ∧
        (RunSatisfies (kvstoreIterStep ty) (KvstoreIteration.NextDictKept ty)
            ⟨kvs, it, [], false⟩ ops → s.finished = true → ∀ target k, kvs.Holds ty target k →
          RunSatisfies (kvstoreIterStep ty) (KvstoreIteration.HoldsAtNext ty target k)
            ⟨kvs, it, [], false⟩ ops → s.timesReturned ty target k = 1) := by
  obtain ⟨s0, hs0, hinv0⟩ := hallowed₀.invariant (KvstorePairInv ty bits False)
    (fun s op hop h => kvstorePairStep_spec hop False.elim h)
    (kvstorePairInv_create hbits onDemand free onDemand' free' False)
  obtain rfl : s0 = (kvs, kvs₂) := Option.some.inj (hs0.symm.trans hkvs)
  obtain ⟨it, hit, hinv, htracks⟩ :=
    @kvstoreIteratorInit_spec K S V _ ty kvs hinv0.left.1 hinv0.left.2
  refine ⟨it, hit, fun ops hallowed => ?_⟩
  obtain ⟨s, hs, -⟩ := hallowed.invariant
    (fun s => s.finished = false → s.Inv ty)
    (fun s op hop h => by
      obtain ⟨s', hs', hinv', -⟩ := KvstoreIteration.step_spec hfull hop (h hop.unfinished)
      exact ⟨s', hs', hinv'⟩)
    (fun _ => hinv)
  refine ⟨s, hs, fun hkept hfin target k hk hholds => ?_⟩
  obtain ⟨s', hs', htimes⟩ := ((hallowed.and hkept).and hholds).invariant
    (fun s =>
      (s.finished = false → s.Inv ty ∧ s.Tracks ty target k) ∧
        (s.finished = true → s.timesReturned ty target k = 1))
    (fun s op hop h => by
      obtain ⟨hi, ht⟩ := h.1 hop.1.1.unfinished
      obtain ⟨s', hs', hinv', htracks'⟩ := KvstoreIteration.step_spec hfull hop.1.1 hi
      obtain ⟨h1, h2⟩ := htracks' target k hop.1.2 hop.2 ht
      exact ⟨s', hs', fun hf => ⟨hinv' hf, h1 hf⟩, h2⟩)
    ⟨fun _ => ⟨hinv, htracks target k hk⟩, fun hf => absurd hf (by simp)⟩
  obtain rfl : s = s' := Option.some.inj (hs.symm.trans hs')
  exact htimes.2 hfin

/-- A kvstore with one key in each of the first three of four dicts, for examples. -/
def iteratedKvstore : Kvstore ℕ ℕ :=
  ⟨true, true, [some ⟨⟨some 2, 1, [[⟨4, 40⟩], [], [], []]⟩, DictHt.reset, -1, 0, 0, []⟩,
    some ⟨⟨some 2, 1, [[], [⟨5, 50⟩], [], []]⟩, DictHt.reset, -1, 0, 0, []⟩,
    some ⟨⟨some 2, 1, [[], [], [⟨6, 60⟩], []]⟩, DictHt.reset, -1, 0, 0, []⟩, none], 2, 0,
    3, 3, 3, 12, some ⟨2, [0, 1, 2, 1, 3], 3⟩, 0⟩

/-- The operations that lead to it. -/
def iteratedOps : List (KvstorePairOp ℕ ℕ ℕ) :=
  let env : KvstoreEnv := ⟨.enable, fun _ => true⟩
  [.left env (.addRaw 0 ⟨4, 40⟩), .left env (.addRaw 1 ⟨5, 50⟩), .left env (.addRaw 2 ⟨6, 60⟩)]

/-- The entry just returned is deleted, and its dict is released when the iterator leaves it. -/
theorem kvstoreIterator_complete_delete_returned :
    let env : KvstoreEnv := ⟨.enable, fun _ => true⟩
    ∃ it s, kvstoreIteratorInit iteratedKvstore = some it ∧
      runSteps (kvstoreIterStep natDictType) ⟨iteratedKvstore, it, [], false⟩
        [.next env, .op env (.delete 0 4), .next env, .next env, .next env] = some s ∧
      s.finished = true ∧ kvstoreGetDict s.kvs 0 = none ∧ s.timesReturned natDictType 2 6 = 1 := by
  intro env
  have hallowed0 : RunSatisfies (kvstorePairStep natDictType) (fun s op => op.Allowed s)
      (kvstorePairCreate 2 true true true true) iteratedOps := by decide +kernel
  have hkvs : runSteps (kvstorePairStep natDictType) (kvstorePairCreate 2 true true true true)
      iteratedOps = some (iteratedKvstore, kvstoreCreate 2 true true) := by decide +kernel
  obtain ⟨it, hit, hruns⟩ :=
    kvstoreIterator_complete natDictType rfl (by decide) true true true true hallowed0 hkvs
  obtain rfl : it = ⟨-1, 0, none, dictInitSafeIterator⟩ :=
    Option.some.inj (hit.symm.trans (by decide +kernel))
  obtain ⟨s, hs, htimes⟩ := hruns
    [.next env, .op env (.delete 0 4), .next env, .next env, .next env] (by decide +kernel)
  have hend : ∀ s' ∈ runSteps (kvstoreIterStep natDictType)
      ⟨iteratedKvstore, ⟨-1, 0, none, dictInitSafeIterator⟩, [], false⟩
      [.next env, .op env (.delete 0 4), .next env, .next env, .next env],
      s'.finished = true ∧ kvstoreGetDict s'.kvs 0 = none := by decide +kernel
  obtain ⟨hfin, hfreed⟩ := hend s hs
  exact ⟨_, s, hit, hs, hfin, hfreed,
    htimes (by decide +kernel) hfin 2 6 (by decide +kernel) (by decide +kernel)⟩

/-- The next dict loses its only key before the iterator gets there: the iteration ends, and the key
of the dict behind it is never returned, although it is present all the time. -/
theorem kvstoreIterator_emptied_next_dict :
    let env : KvstoreEnv := ⟨.enable, fun _ => true⟩
    let it : KvstoreIterator ℕ := ⟨-1, 0, none, dictInitSafeIterator⟩
    let ops : List (KvstoreIterOp ℕ ℕ ℕ) := [.next env, .op env (.delete 1 5), .next env]
    runSteps (kvstorePairStep natDictType) (kvstorePairCreate 2 true true true true) iteratedOps =
        some (iteratedKvstore, kvstoreCreate 2 true true) ∧
      kvstoreIteratorInit iteratedKvstore = some it ∧ iteratedKvstore.Holds natDictType 2 6 ∧
      RunSatisfies (kvstoreIterStep natDictType) (KvstoreIteration.Allowed natDictType)
        ⟨iteratedKvstore, it, [], false⟩ ops ∧
      RunSatisfies (kvstoreIterStep natDictType) (KvstoreIteration.HoldsAtNext natDictType 2 6)
        ⟨iteratedKvstore, it, [], false⟩ ops ∧
      ∃ s, s ∈ runSteps (kvstoreIterStep natDictType) ⟨iteratedKvstore, it, [], false⟩ ops ∧
        s.finished = true ∧ s.kvs.Holds natDictType 2 6 ∧ s.timesReturned natDictType 2 6 = 0 := by
  decide +kernel

end RainCall
