import RainCall.Kvstore.Move

/-!
# Scanning a kvstore

`kvstoreScan` packs the index of a dict and a cursor of that dict into one number. It scans the dict
and, when that scan is over, goes to the next dict that is not empty. `kvstoreScan_coverage`: a scan
from cursor `0` back to cursor `0` visits every key that is present at each of the calls.

The scan is ahead of a key of dict `target` when its cursor is in an earlier dict, or in that dict
and not behind the key in the order of `dictScan`.
-/

namespace RainCall

open BitVec Option

variable {K S V : Type*}

/-! ### The model -/

def addDictIndexToCursor (kvs : Kvstore S V) (didx : ℤ) (cursor : BitVec 64) : BitVec 64 :=
  if kvs.numDicts = 1 then cursor
  else if didx < 0 then cursor
  else (cursor <<< kvs.numDictsBits) ||| BitVec.ofInt 64 didx

def getAndClearDictIndexFromCursor (kvs : Kvstore S V) (cursor : BitVec 64) : ℕ × BitVec 64 :=
  if kvs.numDicts = 1 then (0, cursor)
  else ((cursor &&& BitVec.ofNat 64 (kvs.numDicts - 1)).toNat, cursor >>> kvs.numDictsBits)

/-- `kvstoreGetNextNonEmptyDictIndex`, with its assertion. -/
def kvstoreGetNextNonEmptyDictIndex (kvs : Kvstore S V) (didx : ℕ) : Option ℤ :=
  if kvs.numDicts = 1 then if didx = 0 then some (-1) else none
  else kvs.dictSizes.bind fun ft => fwTreeFindNextNonEmpty ft didx

/-- The end of `kvstoreScan`, where the scan of dict `didx` is over. -/
def kvstoreScanNextDict (kvs : Kvstore S V) (onlydidx : ℤ) (didx : ℕ) : Option (BitVec 64) :=
  if 0 ≤ onlydidx then some 0
  else
    (kvstoreGetNextNonEmptyDictIndex kvs didx).map fun next =>
      if next = -1 then 0 else addDictIndexToCursor kvs next 0

/-- `kvstoreScan`: the kvstore, the next cursor and the entries handed to the callback. The function
`skip` gives the answers of `skip_cb`, and the callback for entries does not change the kvstore. -/
def kvstoreScan (env : KvstoreEnv) (kvs : Kvstore S V) (cursor : BitVec 64) (onlydidx : ℤ)
    (skip : ℕ → Bool) : Option (Kvstore S V × BitVec 64 × List (DictEntry S V)) :=
  let start := getAndClearDictIndexFromCursor kvs cursor
  if 0 ≤ onlydidx ∧ onlydidx < start.1 then some (kvs, 0, [])
  else if 0 ≤ onlydidx ∧ (kvs.numDicts : ℤ) ≤ onlydidx then none
  else
    -- fast-forward to `onlydidx`
    let start := if 0 ≤ onlydidx ∧ start.1 < onlydidx then (onlydidx.toNat, 0) else start
    match if skip start.1 then none else kvstoreGetDict kvs start.1 with
    | none => (kvstoreScanNextDict kvs onlydidx start.1).map fun c => (kvs, c, [])
    | some d =>
      (dictScan d start.2).bind fun r =>
        let kvs := freeDictIfNeeded env kvs start.1
        if r.1 = 0 then (kvstoreScanNextDict kvs onlydidx start.1).map fun c => (kvs, c, r.2)
        else some (kvs, addDictIndexToCursor kvs start.1 r.1, r.2)

/-! ### The cursor -/

variable {ty : DictType K S} {kvs kvs' : Kvstore S V} {didx : ℕ} {v : BitVec 64}

section

variable (hbits : kvs.numDictsBits ≤ 16) (hlt : didx < kvs.numDicts) (hv : v.toNat < 2 ^ 48)
include hbits hlt hv

/-- The number that a dict index and a dict cursor are packed into. -/
lemma toNat_addDictIndexToCursor :
    (addDictIndexToCursor kvs didx v).toNat = 2 ^ kvs.numDictsBits * v.toNat + didx := by
  rw [addDictIndexToCursor]
  split_ifs with hone hneg
  · have hzero : kvs.numDictsBits = 0 := (Nat.pow_eq_one.mp hone).resolve_left (by omega)
    rw [Kvstore.numDicts, hzero] at hlt
    rw [hzero]
    omega
  · omega
  · have hpow : 2 ^ kvs.numDictsBits ≤ 2 ^ 16 := Nat.pow_le_pow_right (by omega) hbits
    have hsmall : 2 ^ kvs.numDictsBits * v.toNat < 2 ^ 64 :=
      calc 2 ^ kvs.numDictsBits * v.toNat ≤ 2 ^ 16 * v.toNat := Nat.mul_le_mul_right _ hpow
        _ < 2 ^ 64 := by omega
    have hdidx : (BitVec.ofInt 64 didx).toNat = didx := by
      rw [BitVec.ofInt_natCast, BitVec.toNat_ofNat]
      rw [Kvstore.numDicts] at hlt
      omega
    rw [BitVec.toNat_or, BitVec.toNat_shiftLeft, hdidx, Nat.shiftLeft_eq, Nat.mul_comm v.toNat,
      Nat.mod_eq_of_lt hsmall, Nat.two_pow_add_eq_or_of_lt hlt]

/-- A packed dict index and dict cursor are found again. -/
lemma getAndClear_add :
    getAndClearDictIndexFromCursor kvs (addDictIndexToCursor kvs didx v) = (didx, v) := by
  have hnat := toNat_addDictIndexToCursor hbits hlt hv
  rw [getAndClearDictIndexFromCursor]
  split_ifs with hone
  · have hzero : didx = 0 := by omega
    rw [addDictIndexToCursor, if_pos hone, hzero]
  · have hpow : 2 ^ kvs.numDictsBits ≤ 2 ^ 16 := Nat.pow_le_pow_right (by omega) hbits
    have hmask : (BitVec.ofNat 64 (kvs.numDicts - 1)).toNat = 2 ^ kvs.numDictsBits - 1 := by
      rw [BitVec.toNat_ofNat, Kvstore.numDicts, Nat.mod_eq_of_lt (by omega)]
    have hlt' : didx < 2 ^ kvs.numDictsBits := hlt
    refine Prod.ext ?_ (BitVec.eq_of_toNat_eq ?_)
    · rw [BitVec.toNat_and, hmask, hnat, Nat.and_two_pow_sub_one_eq_mod, Nat.mul_add_mod,
        Nat.mod_eq_of_lt hlt']
    · rw [BitVec.toNat_ushiftRight, hnat, Nat.shiftRight_eq_div_pow,
        Nat.mul_add_div (by positivity),
        Nat.div_eq_of_lt hlt', Nat.add_zero]

/-- The packed cursor is zero only for cursor zero of dict zero. -/
lemma addDictIndexToCursor_ne_zero (hne : didx ≠ 0 ∨ v ≠ 0) :
    addDictIndexToCursor kvs didx v ≠ 0 := by
  intro hzero
  have hnat := toNat_addDictIndexToCursor hbits hlt hv
  rw [hzero, show (0 : BitVec 64).toNat = 0 from rfl] at hnat
  rcases hne with hne | hne
  · omega
  · have hprod : 2 ^ kvs.numDictsBits * v.toNat = 0 := by omega
    have hv0 : v.toNat = 0 := (Nat.mul_eq_zero.mp hprod).resolve_left (Nat.two_pow_pos _).ne'
    exact hne (eq_of_toNat_eq hv0)

end

lemma getAndClear_lt (hbits : kvs.numDictsBits ≤ 16) (cursor : BitVec 64) :
    (getAndClearDictIndexFromCursor kvs cursor).1 < kvs.numDicts := by
  have hpos : 0 < kvs.numDicts := Nat.two_pow_pos _
  rw [getAndClearDictIndexFromCursor]
  split_ifs with hone
  · exact hpos
  · have hpow : 2 ^ kvs.numDictsBits ≤ 2 ^ 16 := Nat.pow_le_pow_right (by omega) hbits
    rw [toNat_and, toNat_ofNat, Nat.mod_eq_of_lt (by rw [Kvstore.numDicts]; omega)]
    exact Nat.and_le_right.trans_lt (Nat.sub_lt hpos Nat.one_pos)

lemma getAndClear_zero (kvs : Kvstore S V) : getAndClearDictIndexFromCursor kvs 0 = (0, 0) := by
  rw [getAndClearDictIndexFromCursor]
  split_ifs
  · rfl
  · rw [show (0 : BitVec 64) = 0#64 from rfl, zero_and, zero_ushiftRight]
    rfl

/-! ### One call -/

/-- Every table of the kvstore has fewer than `2 ^ 48` buckets. -/
def Kvstore.TablesSmall (kvs : Kvstore S V) : Prop :=
  ∀ i d, kvstoreGetDict kvs i = some d →
    dicthtSize d.ht0.sizeExp < 2 ^ 48 ∧ dicthtSize d.ht1.sizeExp < 2 ^ 48

variable {es : List (DictEntry S V)}

/-- The cursor of a dict with small tables is small. -/
lemma dictScan_cursor_lt {d : Dict S V} (h : d.WF ty)
    (hsmall : dicthtSize d.ht0.sizeExp < 2 ^ 48 ∧ dicthtSize d.ht1.sizeExp < 2 ^ 48)
    {v' : BitVec 64} (hscan : dictScan d v = some (v', es)) : v'.toNat < 2 ^ 48 := by
  by_cases hne : dictSize d = 0
  · rw [dictScan, if_pos hne] at hscan
    have hv' : 0 = v' := congrArg Prod.fst (some.inj hscan)
    rw [← hv']
    decide
  · obtain ⟨e, v'', es', he, hbuckets, hscan', hpos, -⟩ := dictScan_spec h hne v
    obtain ⟨rfl, rfl⟩ : v' = v'' ∧ es = es' := by simpa [hscan] using hscan'
    have hdvd : 2 ^ (64 - e) ∣ cursorPos v' := by
      rw [hpos, Nat.dvd_mod_iff (pow_dvd_pow 2 (Nat.sub_le _ _))]
      exact two_pow_dvd_blockEnd 64 e _
    have he48 : e ≤ 48 := by
      by_contra hgt
      have hpow : 2 ^ 49 ≤ 2 ^ e := Nat.pow_le_pow_right (by omega) (by omega)
      rw [dictBuckets] at hbuckets
      omega
    exact (toNat_lt_of_dvd_cursorPos hdvd).trans_le (Nat.pow_le_pow_right (by omega) he48)

lemma kvstoreGetNextNonEmptyDictIndex_spec (hc : kvs.CountsKeys)
    (hlt : didx < kvs.numDicts) :
    (kvstoreGetNextNonEmptyDictIndex kvs didx = some (-1) ∧
        ∀ j, didx < j → j < kvs.numDicts → kvstoreDictSize kvs j = 0) ∨
      ∃ q, didx < q ∧ q < kvs.numDicts ∧ kvstoreGetNextNonEmptyDictIndex kvs didx = some (q : ℤ) ∧
        kvstoreDictSize kvs q ≠ 0 ∧ ∀ j, didx < j → j < q → kvstoreDictSize kvs j = 0 := by
  rw [kvstoreGetNextNonEmptyDictIndex]
  split_ifs with hone hzero
  · exact .inl ⟨rfl, fun j _ hj => by omega⟩
  · omega
  · obtain ⟨ft, hft, hbits, hrep⟩ := hc.tree hone
    have hsize : ft.size = kvs.numDicts := by rw [FenwickTree.size, hbits, Kvstore.numDicts]
    rw [hft, ← hsize]
    exact hrep.findNextNonEmpty (by rwa [hsize])

/-- The end of the scan of a dict: the scan is over and no later dict has a key, or it goes on with
the next dict that has one. -/
lemma kvstoreScanNextDict_spec (hc : kvs.CountsKeys) (hlt : didx < kvs.numDicts) :
    (kvstoreScanNextDict kvs (-1) didx = some 0 ∧
        ∀ j, didx < j → j < kvs.numDicts → kvstoreDictSize kvs j = 0) ∨
      ∃ q, didx < q ∧ q < kvs.numDicts ∧
        kvstoreScanNextDict kvs (-1) didx = some (addDictIndexToCursor kvs q 0) ∧
        ∀ j, didx < j → j < q → kvstoreDictSize kvs j = 0 := by
  rw [kvstoreScanNextDict, if_neg (by decide)]
  rcases kvstoreGetNextNonEmptyDictIndex_spec hc hlt with ⟨hnext, hall⟩ |
    ⟨q, hq, hql, hnext, -, hall⟩
  · rw [hnext]
    exact .inl ⟨rfl, hall⟩
  · rw [hnext]
    refine .inr ⟨q, hq, hql, ?_, hall⟩
    rw [map_some, if_neg (by omega)]

/-- The scan that has returned `cursor` is not behind key `k` of dict `target`. -/
def Kvstore.ScanAhead (ty : DictType K S) (kvs : Kvstore S V) (target : ℕ) (k : K)
    (cursor : BitVec 64) : Prop :=
  (getAndClearDictIndexFromCursor kvs cursor).1 < target ∨
    (getAndClearDictIndexFromCursor kvs cursor).1 = target ∧
      cursorPos (getAndClearDictIndexFromCursor kvs cursor).2 ≤ ty.keyPos k

variable {target : ℕ}

/-- Whether a scan is ahead of a key depends only on the number of dicts. -/
lemma Kvstore.ScanAhead.congr {k : K} {cursor : BitVec 64}
    (h : kvs.ScanAhead ty target k cursor) (hbits : kvs'.numDictsBits = kvs.numDictsBits) :
    kvs'.ScanAhead ty target k cursor := by
  have hsame : getAndClearDictIndexFromCursor kvs' cursor =
      getAndClearDictIndexFromCursor kvs cursor := by
    rw [getAndClearDictIndexFromCursor, getAndClearDictIndexFromCursor, Kvstore.numDicts,
      Kvstore.numDicts, hbits]
  rwa [Kvstore.ScanAhead, hsame]

/-- A cursor in an earlier dict, or in the dict of the key and not behind it. -/
lemma scanAhead_addDictIndexToCursor (hbits : kvs.numDictsBits ≤ 16) (hlt : didx < kvs.numDicts)
    (hv : v.toNat < 2 ^ 48) {k : K}
    (h : didx < target ∨ didx = target ∧ cursorPos v ≤ ty.keyPos k) :
    kvs.ScanAhead ty target k (addDictIndexToCursor kvs didx v) := by
  rwa [Kvstore.ScanAhead, getAndClear_add hbits hlt hv]

/-- A scan that leaves a dict does not jump over a later dict that has a key. -/
lemma kvstoreScanNextDict_ahead (hs : kvs.Shape ty) (hc : kvs.CountsKeys)
    (k : K) (hlt : didx < target) (htarget : target < kvs.numDicts)
    (hne : kvstoreDictSize kvs target ≠ 0) {c : BitVec 64}
    (hnext : kvstoreScanNextDict kvs (-1) didx = some c) :
    c ≠ 0 ∧ kvs.ScanAhead ty target k c := by
  rcases kvstoreScanNextDict_spec hc (hlt.trans htarget) with
    ⟨-, hall⟩ | ⟨q, hq, hql, hnext', hall⟩
  · exact absurd (hall target hlt htarget) hne
  · obtain rfl : c = addDictIndexToCursor kvs q 0 := some.inj (hnext.symm.trans hnext')
    have hle : q ≤ target := by
      by_contra hgt
      exact hne (hall target hlt (by omega))
    refine ⟨addDictIndexToCursor_ne_zero hs.bits hql (by decide) (.inl (by omega)),
      scanAhead_addDictIndexToCursor hs.bits hql (by decide) ?_⟩
    rcases hle.lt_or_eq with hlt' | heq
    · exact .inl hlt'
    · have hzero : cursorPos (0 : BitVec 64) = 0 := cursorPos_zero
      exact .inr ⟨heq, by rw [hzero]; exact Nat.zero_le _⟩

section Call

variable (env : KvstoreEnv) {cursor c : BitVec 64} {didx : ℕ}
  (hstart : getAndClearDictIndexFromCursor kvs cursor = (didx, c))
include hstart

/-- A call at a slot that has no dict. -/
lemma kvstoreScan_eq_of_none (hd : kvstoreGetDict kvs didx = none) :
    kvstoreScan env kvs cursor (-1) (fun _ => false) =
      (kvstoreScanNextDict kvs (-1) didx).map fun c => (kvs, c, []) := by
  simp [kvstoreScan, hstart, hd]

/-- A call at a slot that has a dict. -/
lemma kvstoreScan_eq_of_some {d : Dict S V} (hd : kvstoreGetDict kvs didx = some d)
    (hscan : dictScan d c = some (v, es)) :
    kvstoreScan env kvs cursor (-1) (fun _ => false) =
      if v = 0 then
        (kvstoreScanNextDict (freeDictIfNeeded env kvs didx) (-1) didx).map
          fun c => (freeDictIfNeeded env kvs didx, c, es)
      else
        some (freeDictIfNeeded env kvs didx,
          addDictIndexToCursor (freeDictIfNeeded env kvs didx) didx v, es) := by
  simp [kvstoreScan, hstart, hd, hscan]

end Call

/-- A call fails no assertion and keeps the counters right. -/
lemma kvstoreScan_spec (env : KvstoreEnv) (hs : kvs.Shape ty)
    (hc : kvs.CountsKeys) (cursor : BitVec 64) :
    ∃ kvs' c es, kvstoreScan env kvs cursor (-1) (fun _ => false) = some (kvs', c, es) ∧
      kvs.Keeps ty kvs' := by
  have hlt := getAndClear_lt hs.bits cursor
  cases hd : kvstoreGetDict kvs (getAndClearDictIndexFromCursor kvs cursor).1 with
  | none =>
    rw [kvstoreScan_eq_of_none env Prod.mk.eta.symm hd]
    rcases kvstoreScanNextDict_spec hc hlt with ⟨hnext, -⟩ | ⟨q, -, -, hnext, -⟩
    all_goals exact ⟨kvs, _, [], by rw [hnext, map_some], .refl hs hc⟩
  | some d =>
    obtain ⟨⟨v, es⟩, hscan⟩ := isSome_iff_exists.mp
      (dictScan_isSome (hs.stored _ _ hd).wf (getAndClearDictIndexFromCursor kvs cursor).2)
    have hkeeps := (freeDictIfNeeded_spec env hs hc hlt).1.toKeeps
    rw [kvstoreScan_eq_of_some env Prod.mk.eta.symm hd hscan]
    by_cases hv : v = 0
    · rw [if_pos hv]
      rcases kvstoreScanNextDict_spec hkeeps.counts (hlt.trans_eq hkeeps.numDicts.symm) with
        ⟨hnext, -⟩ | ⟨q, -, -, hnext, -⟩
      all_goals exact ⟨_, _, es, by rw [hnext, map_some], hkeeps⟩
    · rw [if_neg hv]
      exact ⟨_, _, es, rfl, hkeeps⟩

/-- Key `k` is in dict `target`. -/
def Kvstore.Holds [DecidableEq K] (ty : DictType K S) (kvs : Kvstore S V) (target : ℕ) (k : K) :
    Prop :=
  ∃ d, kvstoreGetDict kvs target = some d ∧ (d.lookup ty k).isSome

instance [DecidableEq K] (kvs : Kvstore S V) (target : ℕ) (k : K) :
    Decidable (kvs.Holds ty target k) :=
  inferInstanceAs (Decidable (∃ d, d ∈ kvstoreGetDict kvs target ∧ (d.lookup ty k).isSome))

/-- A slot with a key is a slot of the array, and its dict is not empty. -/
lemma Kvstore.Holds.spec [DecidableEq K] {k : K} (hs : kvs.Shape ty)
    (h : kvs.Holds ty target k) : target < kvs.numDicts ∧ kvstoreDictSize kvs target ≠ 0 := by
  obtain ⟨d, hd, hk⟩ := h
  obtain ⟨x, hx⟩ := isSome_iff_exists.mp hk
  have hmem := ((hs.stored _ _ hd).wf.lookup_eq_some.mp hx).1
  refine ⟨?_, ?_⟩
  · rw [← hs.length]
    by_contra hge
    rw [kvstoreGetDict, List.getD_eq_default _ _ (by omega)] at hd
    exact absurd hd (by simp)
  · rw [kvstoreDictSize, hd]
    change dictSize d ≠ 0
    rw [(hs.stored _ _ hd).wf.dictSize_eq]
    exact (List.length_pos_of_mem hmem).ne'

/-- Step lemma of a scan: a call that is not behind a key hands the key to the callback, or returns
a cursor that is not `0` and not behind the key. -/
lemma kvstoreScan_step [DecidableEq K] {env : KvstoreEnv} (hs : kvs.Shape ty)
    (hc : kvs.CountsKeys) (hsmall : kvs.TablesSmall) {k : K}
    (hk : kvs.Holds ty target k) {cursor c : BitVec 64}
    (hscan : kvstoreScan env kvs cursor (-1) (fun _ => false) = some (kvs', c, es))
    (hahead : kvs.ScanAhead ty target k cursor) :
    (∃ x ∈ es, ty.entryKey x = k) ∨ c ≠ 0 ∧ kvs'.ScanAhead ty target k c := by
  obtain ⟨htarget, hne⟩ := hk.spec hs
  have hlt := getAndClear_lt hs.bits cursor
  rw [Kvstore.ScanAhead] at hahead
  generalize hstart : getAndClearDictIndexFromCursor kvs cursor = start at hahead hlt
  obtain ⟨i, v⟩ := start
  cases hd : kvstoreGetDict kvs i with
  | none =>
    rw [kvstoreScan_eq_of_none env hstart hd, map_eq_some_iff] at hscan
    obtain ⟨c', hnext, heq⟩ := hscan
    obtain ⟨rfl, rfl, rfl⟩ : kvs = kvs' ∧ c' = c ∧ [] = es := by simpa using heq
    have hi : i < target := by
      rcases hahead with hi | ⟨rfl, -⟩
      · exact hi
      · obtain ⟨d, hd', -⟩ := hk
        rw [hd] at hd'
        exact absurd hd' (by simp)
    exact .inr (kvstoreScanNextDict_ahead hs hc k hi htarget hne hnext)
  | some d =>
    have hwf := (hs.stored _ _ hd).wf
    obtain ⟨⟨v', es'⟩, hds⟩ := isSome_iff_exists.mp (dictScan_isSome hwf v)
    have hsmall' := dictScan_cursor_lt hwf (hsmall i d hd) hds
    have hfree := (freeDictIfNeeded_spec env hs hc hlt).1
    have hbits : (freeDictIfNeeded env kvs i).numDictsBits ≤ 16 := hfree.shape.bits
    have hnum := hfree.toKeeps.numDicts
    rw [kvstoreScan_eq_of_some env hstart hd hds] at hscan
    -- the position of the cursor after the call, if the scan of dict `i` goes on
    have hgoes : v' ≠ 0 → (i < target ∨ i = target ∧ cursorPos v' ≤ ty.keyPos k) →
        c ≠ 0 ∧ kvs'.ScanAhead ty target k c := by
      intro hv' hpos
      rw [if_neg hv'] at hscan
      obtain ⟨rfl, rfl, -⟩ : freeDictIfNeeded env kvs i = kvs' ∧
          addDictIndexToCursor (freeDictIfNeeded env kvs i) i v' = c ∧ es' = es := by
        simpa using hscan
      exact ⟨addDictIndexToCursor_ne_zero hbits (hlt.trans_eq hnum.symm) hsmall' (.inr hv'),
        scanAhead_addDictIndexToCursor hbits (hlt.trans_eq hnum.symm) hsmall' hpos⟩
    have hes : es' = es := by
      by_cases hv' : v' = 0
      · rw [if_pos hv', map_eq_some_iff] at hscan
        obtain ⟨c', -, heq⟩ := hscan
        exact congrArg (fun r => r.2.2) heq
      · rw [if_neg hv'] at hscan
        exact congrArg (fun r => r.2.2) (some.inj hscan)
    rcases hahead with hi | ⟨rfl, hpos⟩
    · by_cases hv' : v' = 0
      · rw [if_pos hv', map_eq_some_iff] at hscan
        obtain ⟨c', hnext, heq⟩ := hscan
        obtain ⟨rfl, rfl, -⟩ : freeDictIfNeeded env kvs i = kvs' ∧ c' = c ∧ es' = es := by
          simpa using heq
        refine .inr (kvstoreScanNextDict_ahead hfree.shape hfree.counts k hi
          (htarget.trans_eq hnum.symm) ?_ hnext)
        rwa [kvstoreDictSize, hfree.others target hi.ne', ← kvstoreDictSize]
      · exact .inr (hgoes hv' (.inl hi))
    · obtain ⟨d', hd', hk'⟩ := hk
      obtain rfl : d = d' := some.inj (hd.symm.trans hd')
      obtain ⟨x, hx⟩ := isSome_iff_exists.mp hk'
      obtain ⟨hmem, rfl⟩ := hwf.lookup_eq_some.mp hx
      rcases dictScan_step hwf hds hmem hpos with hvisited | ⟨hv', hpos'⟩
      · exact .inl ⟨x, hes ▸ hvisited, rfl⟩
      · exact .inr (hgoes hv' (.inr ⟨rfl, hpos'⟩))

/-! ### Whole scans -/

section Run

variable [DecidableEq K]

/-- A complete scan of all dicts that goes on with the kvstore `kvs` at `cursor`: calls of
`kvstoreScan`, each continued with the cursor returned by the one before, until cursor `0` is
returned. Before each further call any operations are executed. At every call the tables are small
and key `k` is in dict `target`. The last argument lists the entries handed to the callback. -/
inductive KvstoreScanRun (ty : DictType K S) (target : ℕ) (k : K) :
    Kvstore S V → BitVec 64 → List (DictEntry S V) → Prop
  | last {kvs cursor kvs' es} (env : KvstoreEnv) (hk : kvs.Holds ty target k)
      (hsmall : kvs.TablesSmall)
      (hscan : kvstoreScan env kvs cursor (-1) (fun _ => false) = some (kvs', 0, es)) :
      KvstoreScanRun ty target k kvs cursor es
  | next {kvs cursor kvs' c es kvs'' es'} (env : KvstoreEnv) (hk : kvs.Holds ty target k)
      (hsmall : kvs.TablesSmall)
      (hscan : kvstoreScan env kvs cursor (-1) (fun _ => false) = some (kvs', c, es)) (hc : c ≠ 0)
      (ops : List (KvstoreEnv × KvstoreOp K S V)) (hrange : ∀ op ∈ ops, op.2.InRange kvs.numDicts)
      (hops : runSteps (kvstoreStep ty) kvs' ops = some kvs'')
      (hrest : KvstoreScanRun ty target k kvs'' c es') :
      KvstoreScanRun ty target k kvs cursor (es ++ es')

/-- Operations keep the counters right. -/
lemma kvstore_run_keeps (hs : kvs.Shape ty) (hc : kvs.CountsKeys)
    {ops : List (KvstoreEnv × KvstoreOp K S V)} (hrange : ∀ op ∈ ops, op.2.InRange kvs.numDicts) :
    ∃ kvs', runSteps (kvstoreStep ty) kvs ops = some kvs' ∧ kvs.Keeps ty kvs' := by
  refine runSteps_invariant (fun kvs' => kvs.Keeps ty kvs') (fun op => op.2.InRange kvs.numDicts) ?_
    (.refl hs hc) hrange
  intro kvs1 op hop h
  obtain ⟨kvs2, hkvs2, hkeeps, -⟩ :=
    kvstoreStep_spec h.shape h.counts op.1 (by rw [h.numDicts]; exact hop)
  exact ⟨kvs2, hkvs2, h.trans hkeeps⟩

/-- A scan hands every key that it is not behind to the callback. -/
lemma KvstoreScanRun.covers {k : K} {cursor : BitVec 64}
    (hrun : KvstoreScanRun ty target k kvs cursor es) (hs : kvs.Shape ty)
    (hc : kvs.CountsKeys) (hahead : kvs.ScanAhead ty target k cursor) :
    ∃ x ∈ es, ty.entryKey x = k := by
  induction hrun with
  | last env hk hsmall hscan =>
    rcases kvstoreScan_step hs hc hsmall hk hscan hahead with hvisited | ⟨hne, -⟩
    · exact hvisited
    · exact absurd rfl hne
  | @next kvs cursor kvs' c es kvs'' es' env hk hsmall hscan hne ops hrange hops hrest ih =>
    rcases kvstoreScan_step hs hc hsmall hk hscan hahead with ⟨x, hx, hxk⟩ | ⟨-, hahead'⟩
    · exact ⟨x, List.mem_append_left _ hx, hxk⟩
    · obtain ⟨kvs1, c1, es1, hscan1, hkeeps⟩ := kvstoreScan_spec env hs hc cursor
      obtain rfl : kvs' = kvs1 := congrArg Prod.fst (some.inj (hscan.symm.trans hscan1))
      have hrange' : ∀ op ∈ ops, op.2.InRange kvs'.numDicts := by
        rw [hkeeps.numDicts]
        exact hrange
      obtain ⟨kvs2, hkvs2, hkeeps'⟩ := kvstore_run_keeps hkeeps.shape hkeeps.counts hrange'
      obtain rfl : kvs'' = kvs2 := some.inj (hops.symm.trans hkvs2)
      obtain ⟨y, hy, hyk⟩ :=
        ih hkeeps'.shape hkeeps'.counts (hahead'.congr hkeeps'.numDictsBits)
      exact ⟨y, List.mem_append_right _ hy, hyk⟩

/-- **Coverage of `kvstoreScan`.**  For a kvstore reached by any operations, moves of dicts
included: a call at any cursor fails no assertion; a scan of all dicts from cursor `0` until cursor
`0` is returned, with any operations between the calls, hands every key that is present at all of
the calls to the callback; and the dict index and the dict cursor are found again in the packed
cursor, which is `0` only if both are. -/
theorem kvstoreScan_coverage (ty : DictType K S) {bits : ℕ} (hbits : bits ≤ 16)
    (onDemand free onDemand' free' : Bool) {ops₀ : List (KvstorePairOp K S V)}
    (hallowed : RunSatisfies (kvstorePairStep ty) (fun s op => op.Allowed s)
      (kvstorePairCreate bits onDemand free onDemand' free') ops₀) {kvs kvs₂ : Kvstore S V}
    (hkvs : runSteps (kvstorePairStep ty) (kvstorePairCreate bits onDemand free onDemand' free')
      ops₀ = some (kvs, kvs₂)) :
    (∀ env cursor, (kvstoreScan env kvs cursor (-1) (fun _ => false)).isSome) ∧
      (∀ target k es, KvstoreScanRun ty target k kvs 0 es → ∃ x ∈ es, ty.entryKey x = k) ∧
      ∀ (didx : ℕ) (v : BitVec 64), didx < 2 ^ bits → v.toNat < 2 ^ 48 →
        getAndClearDictIndexFromCursor kvs (addDictIndexToCursor kvs didx v) = (didx, v) ∧
          (addDictIndexToCursor kvs didx v = 0 → didx = 0 ∧ v = 0) := by
  obtain ⟨s, hs, hinv⟩ := hallowed.invariant (KvstorePairInv ty bits False)
    (fun s op hop h => kvstorePairStep_spec hop False.elim h)
    (kvstorePairInv_create hbits onDemand free onDemand' free' False)
  obtain rfl : s = (kvs, kvs₂) := Option.some.inj (hs.symm.trans hkvs)
  obtain ⟨hshape, hcounts⟩ := hinv.left
  have hb : kvs.numDictsBits = bits := hinv.leftBits
  refine ⟨fun env cursor => ?_, fun target k es hrun => ?_, fun didx v hdidx hv => ?_⟩
  · obtain ⟨kvs', c, es, hscan, -⟩ := kvstoreScan_spec env hshape hcounts cursor
    rw [hscan, Option.isSome_some]
  · refine hrun.covers hshape hcounts ?_
    have hpos0 : cursorPos (0 : BitVec 64) = 0 := cursorPos_zero
    rw [Kvstore.ScanAhead, getAndClear_zero, hpos0]
    rcases Nat.eq_zero_or_pos target with rfl | hpos
    · exact .inr ⟨rfl, Nat.zero_le _⟩
    · exact .inl hpos
  · have hlt : didx < kvs.numDicts := by rw [Kvstore.numDicts, hb]; exact hdidx
    refine ⟨getAndClear_add hshape.bits hlt hv, fun hzero => ?_⟩
    by_contra hne
    exact addDictIndexToCursor_ne_zero hshape.bits hlt hv (by tauto) hzero

/-- A kvstore with key `5` in the second of two dicts, for an example. -/
def scannedKvstore : Kvstore ℕ ℕ :=
  ⟨true, false, [none, some ⟨⟨some 2, 1, [[], [⟨5, 50⟩], [], []]⟩, DictHt.reset, -1, 0, 0, []⟩], 1,
  0,
    1, 1, 1, 4, some ⟨1, [0, 0, 1], 1⟩, 0⟩

/-- The same kvstore after a key has been added to the first dict. -/
def scannedKvstore' : Kvstore ℕ ℕ :=
  ⟨true, false, [some ⟨⟨some 2, 1, [[⟨4, 40⟩], [], [], []]⟩, DictHt.reset, -1, 0, 0, []⟩,
    some ⟨⟨some 2, 1, [[], [⟨5, 50⟩], [], []]⟩, DictHt.reset, -1, 0, 0, []⟩], 1, 0,
    2, 2, 2, 8, some ⟨1, [0, 1, 2], 2⟩, 0⟩

lemma scannedKvstore_tablesSmall : scannedKvstore.TablesSmall ∧ scannedKvstore'.TablesSmall := by
  constructor
  all_goals
    intro i d hd
    rcases i with - | - | i
    · cases hd
      try decide
    · cases hd
      decide
    · cases hd

/-- A scan of two dicts: the first slot has no dict at the first call, and a key is added to it
before the second. -/
theorem kvstoreScan_coverage_two_dicts :
    ∃ kvs kvs₂ : Kvstore ℕ ℕ,
      runSteps (kvstorePairStep natDictType) (kvstorePairCreate 1 true false true true)
        [.left ⟨.enable, fun _ => true⟩ (.addRaw 1 ⟨5, 50⟩)] = some (kvs, kvs₂) ∧
      KvstoreScanRun natDictType 1 5 kvs 0 [⟨5, 50⟩] ∧
      ∃ x ∈ [(⟨5, 50⟩ : DictEntry ℕ ℕ)], natDictType.entryKey x = 5 := by
  let env : KvstoreEnv := ⟨.enable, fun _ => true⟩
  have hkvs : runSteps (kvstorePairStep natDictType) (kvstorePairCreate 1 true false true true)
      [.left env (.addRaw 1 ⟨5, 50⟩)] = some (scannedKvstore, kvstoreCreate 1 true true) := rfl
  have hallowed : RunSatisfies (kvstorePairStep natDictType) (fun s op => op.Allowed s)
      (kvstorePairCreate 1 true false true true : Kvstore ℕ ℕ × Kvstore ℕ ℕ)
      [.left env (.addRaw 1 ⟨5, 50⟩)] :=
    ⟨by rintro didx ⟨rfl⟩; decide, fun _ _ => trivial⟩
  have hk : scannedKvstore.Holds natDictType 1 5 := ⟨_, rfl, by decide⟩
  have hk' : scannedKvstore'.Holds natDictType 1 5 := ⟨_, rfl, by decide⟩
  obtain ⟨hs, hs'⟩ := scannedKvstore_tablesSmall
  have hcall1 : kvstoreScan env scannedKvstore' 1 (-1) (fun _ => false) =
      some (scannedKvstore', 5, []) := by decide +kernel
  have hcall5 : kvstoreScan env scannedKvstore' 5 (-1) (fun _ => false) =
      some (scannedKvstore', 3, []) := by decide +kernel
  have hcall3 : kvstoreScan env scannedKvstore' 3 (-1) (fun _ => false) =
      some (scannedKvstore', 7, [⟨5, 50⟩]) := by decide +kernel
  have h7 : KvstoreScanRun natDictType 1 5 scannedKvstore' 7 [] := .last env hk' hs' rfl
  have h3 := KvstoreScanRun.next env hk' hs' hcall3 (by decide) [] (by simp) rfl h7
  have h5 := KvstoreScanRun.next env hk' hs' hcall5 (by decide) [] (by simp) rfl h3
  have h1 := KvstoreScanRun.next env hk' hs' hcall1 (by decide) [] (by simp) rfl h5
  have hrange : ∀ op ∈ [(env, KvstoreOp.addRaw 0 (⟨4, 40⟩ : DictEntry ℕ ℕ))],
      KvstoreOp.InRange (op.2 : KvstoreOp ℕ ℕ ℕ) scannedKvstore.numDicts := by
    intro op hop didx hdidx
    obtain rfl := List.mem_singleton.mp hop
    obtain rfl : 0 = didx := Option.some.inj hdidx
    decide
  have hrun : KvstoreScanRun natDictType 1 5 scannedKvstore 0 ([] ++ _) :=
    .next env hk hs rfl (by decide) _ hrange rfl h1
  exact ⟨scannedKvstore, _, hkvs, hrun,
    (kvstoreScan_coverage natDictType (by decide) true false true true hallowed hkvs).2.1 1 5 _
      hrun⟩

end Run

end RainCall
