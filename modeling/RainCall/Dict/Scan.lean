import RainCall.Foundation.ReverseCursor
import RainCall.Dict.Refinement

/-!
# Scanning a dict with a stateless cursor

`dictScan` visits one bucket, or while rehashing one bucket of the smaller table and its expansions
in the larger one, and returns the next cursor. Between two calls the dict may be changed and
resized at will. `dictScan_coverage`: a scan from cursor `0` back to cursor `0` visits every key
that is present at each of the calls.

The position of a key in the order of the scan is `cursorPos` of its hash. The step lemma
`dictScan_step` says that a call at cursor `v` visits a key whose position is not before that of
`v`, or returns a cursor that is still not behind the key.
-/

namespace RainCall

open BitVec Nat

variable {K S V : Type*}

/-! ## The model -/

/-- The loop of `rev`, where `s = 2 ^ j` after the shift `s >>= 1` of the loop condition. -/
def revLoop : ℕ → BitVec 64 → BitVec 64 → BitVec 64
  | 0, _, v => v
  | j + 1, mask, v =>
    let s := 2 ^ j
    let mask' := mask ^^^ (mask <<< s)
    revLoop j mask' (((v >>> s) &&& mask') ||| ((v <<< s) &&& ~~~ mask'))

/-- `rev`: reverse the bits of a word. -/
def rev (v : BitVec 64) : BitVec 64 := revLoop 6 (BitVec.allOnes 64) v

/-- `DICTHT_SIZE_MASK` as a word. -/
def dicthtSizeMaskWord (exp : Option ℕ) : BitVec 64 := BitVec.ofNat 64 (dicthtSizeMask exp)

/-- `v |= ~m; v = rev(v); v++; v = rev(v);` -/
def incrementCursor (m v : BitVec 64) : BitVec 64 := rev (rev (v ||| ~~~ m) + 1)

/-- `dictScanDefragBucket`: the entries handed to the callback for the bucket `v & m`. -/
def dictScanBucket (ht : DictHt S V) (v : BitVec 64) : List (DictEntry S V) :=
  bucketAt ht.table (v &&& dicthtSizeMaskWord ht.sizeExp).toNat

/-- The `do ... while` loop over the expansions of a bucket in the larger table `t1`, cut off after
`fuel` iterations. -/
def scanExpansions (m0 : BitVec 64) (t1 : DictHt S V) :
    ℕ → BitVec 64 → Option (BitVec 64 × List (DictEntry S V))
  | 0, _ => none
  | fuel + 1, v =>
    let m1 := dicthtSizeMaskWord t1.sizeExp
    let v' := incrementCursor m1 v
    if v' &&& (m0 ^^^ m1) ≠ 0 then
      (scanExpansions m0 t1 fuel v').map fun r => (r.1, dictScanBucket t1 v ++ r.2)
    else some (v', dictScanBucket t1 v)

/-- `dictScan`: the next cursor and the entries handed to the callback. -/
def dictScan (d : Dict S V) (v : BitVec 64) : Option (BitVec 64 × List (DictEntry S V)) :=
  if dictSize d = 0 then some (0, [])
  else if ¬ dictIsRehashing d then
    some (incrementCursor (dicthtSizeMaskWord d.ht0.sizeExp) v, dictScanBucket d.ht0 v)
  else
    -- t0 is the smaller and t1 the larger table
    let swap := dicthtSize d.ht1.sizeExp < dicthtSize d.ht0.sizeExp
    let t0 := if swap then d.ht1 else d.ht0
    let t1 := if swap then d.ht0 else d.ht1
    (scanExpansions (dicthtSizeMaskWord t0.sizeExp) t1 (dicthtSize t1.sizeExp) v).map
      fun r => (r.1, dictScanBucket t0 v ++ r.2)

/-! ## Bit reversal -/

lemma xor_two_pow_of_lt : ∀ i < 64, ∀ j < 6,
    i ^^^ 2 ^ j = if i.testBit j then i - 2 ^ j else i + 2 ^ j := by
  decide

/-- One iteration of `rev` exchanges each bit `i` with bit `i ^ s`. -/
lemma getLsbD_revStep {j : ℕ} (hj : j < 6) {mask : BitVec 64}
    (hmask : ∀ i < 64, mask.getLsbD i = !i.testBit j) (v : BitVec 64) {i : ℕ} (hi : i < 64) :
    (((v >>> 2 ^ j) &&& mask) ||| ((v <<< 2 ^ j) &&& ~~~ mask)).getLsbD i =
      v.getLsbD (i ^^^ 2 ^ j) := by
  simp only [getLsbD_or, getLsbD_and,
    getLsbD_shiftLeft, getLsbD_not, hmask i hi, xor_two_pow_of_lt i hi j hj, hi]
  by_cases hb : i.testBit j
  · have hge : ¬ i < 2 ^ j := fun h => by simp [testBit_lt_two_pow h] at hb
    simp [hb, hge]
  · simp [hb, add_comm]

/-- `rev` reverses the bits of a word. -/
lemma rev_eq_reverse (v : BitVec 64) : rev v = v.reverse := by
  refine eq_of_getLsbD_eq fun i hi => ?_
  have hx : ∀ i < 64, ∀ j < 6, i ^^^ 2 ^ j < 64 := by decide
  have hrev : ∀ i < 64, i ^^^ 2 ^ 0 ^^^ 2 ^ 1 ^^^ 2 ^ 2 ^^^ 2 ^ 3 ^^^ 2 ^ 4 ^^^ 2 ^ 5 = 63 - i := by
    decide
  have h0 := hx i hi 0 (by omega)
  have h1 := hx _ h0 1 (by omega)
  have h2 := hx _ h1 2 (by omega)
  have h3 := hx _ h2 3 (by omega)
  have h4 := hx _ h3 4 (by omega)
  simp only [rev, revLoop]
  -- the masks of the six iterations, outermost last
  rw [getLsbD_revStep (by omega) (by decide) _ hi, getLsbD_revStep (by omega) (by decide) _ h0,
    getLsbD_revStep (by omega) (by decide) _ h1, getLsbD_revStep (by omega) (by decide) _ h2,
    getLsbD_revStep (by omega) (by decide) _ h3, getLsbD_revStep (by omega) (by decide) _ h4,
    hrev i hi, getLsbD_reverse, getMsbD_eq_getLsbD]
  simp [hi]

lemma incrementCursor_some (e : ℕ) (v : BitVec 64) :
    incrementCursor (dicthtSizeMaskWord (some e)) v = cursorAdvance e v := by
  rw [incrementCursor, rev_eq_reverse, rev_eq_reverse]
  rfl

/-! ## What one call visits -/

variable {ty : DictType K S}

/-- The position of a key in the order of the scan. -/
def DictType.keyPos (ty : DictType K S) (k : K) : ℕ := cursorPos (ty.hashFunction k)

variable {v : BitVec 64} {d : Dict S V}

/-- The bucket of a cursor holds the entries whose positions lie in the block of the cursor. -/
lemma mem_dictScanBucket {ht : DictHt S V} (h : ht.WF ty) {e : ℕ} (he : ht.sizeExp = some e)
    {x : DictEntry S V} (hx : x ∈ ht.entries)
    (hblock : ty.keyPos (ty.entryKey x) / 2 ^ (64 - e) = cursorPos v / 2 ^ (64 - e)) :
    x ∈ dictScanBucket ht v := by
  have he64 : e ≤ 64 := (h.exp_bounds e he).2.trans (by omega)
  have hlt : 2 ^ e - 1 < 2 ^ 64 :=
    (Nat.sub_lt (Nat.two_pow_pos e) Nat.one_pos).trans_le (Nat.pow_le_pow_right (by omega) he64)
  have hidx : (v &&& dicthtSizeMaskWord ht.sizeExp).toNat = v.toNat % 2 ^ e := by
    rw [he, dicthtSizeMaskWord, toNat_and, toNat_ofNat, dicthtSizeMask,
      Nat.mod_eq_of_lt hlt, Nat.and_two_pow_sub_one_eq_mod]
  rw [dictScanBucket, hidx, ← (mod_two_pow_eq_iff he64 _ _).mpr hblock, ← bucketIdx_some, ← he]
  exact h.mem_bucket hx

/-- The loop over the larger table visits everything from the cursor to the end of the block of the
smaller table, and returns the cursor at the end of that block. -/
lemma scanExpansions_spec {t1 : DictHt S V} (h : t1.WF ty) {e0 e1 : ℕ} (he : t1.sizeExp = some e1)
    (h01 : e0 ≤ e1) {fuel : ℕ}
    (hfuel : blockEnd 64 e0 (cursorPos v) ≤ (cursorPos v / 2 ^ (64 - e1) + fuel) * 2 ^ (64 - e1)) :
    ∃ v' es, scanExpansions (dicthtSizeMaskWord (some e0)) t1 fuel v = some (v', es) ∧
      cursorPos v' = blockEnd 64 e0 (cursorPos v) % 2 ^ 64 ∧
      ∀ x ∈ t1.entries, cursorPos v ≤ ty.keyPos (ty.entryKey x) →
        ty.keyPos (ty.entryKey x) < blockEnd 64 e0 (cursorPos v) → x ∈ es := by
  have h64 : e1 ≤ 64 := (h.exp_bounds e1 he).2.trans (by omega)
  induction fuel generalizing v with
  | zero =>
    have h1 := lt_blockEnd 64 e0 (cursorPos v)
    have h2 := div_mul_le_self (cursorPos v) (2 ^ (64 - e1))
    rw [add_zero] at hfuel
    omega
  | succ fuel ih =>
    have hle : blockEnd 64 e1 (cursorPos v) ≤ blockEnd 64 e0 (cursorPos v) :=
      blockEnd_le_blockEnd h01 _
    have hE : blockEnd 64 e0 (cursorPos v) ≤ 2 ^ 64 :=
      blockEnd_le_two_pow (h01.trans h64) (cursorPos_lt v)
    have hpos := cursorPos_advance h64 v
    have hdvd1 : 2 ^ (64 - e1) ∣ cursorPos (cursorAdvance e1 v) := by
      rw [hpos, dvd_mod_iff (pow_dvd_pow 2 (sub_le _ _))]
      exact two_pow_dvd_blockEnd 64 e1 _
    have hstop := and_maskDiff_eq_zero_iff h01 h64 hdvd1
    have hbucket : ∀ x ∈ t1.entries, cursorPos v ≤ ty.keyPos (ty.entryKey x) →
        ty.keyPos (ty.entryKey x) < blockEnd 64 e1 (cursorPos v) → x ∈ dictScanBucket t1 v := by
      intro x hx hge hlt
      rcases same_block_or_le hge with hsame | hbehind
      · exact mem_dictScanBucket h he hx hsame
      · omega
    rcases hle.eq_or_lt with heq | hlt
    · -- the end of the block of the smaller table is reached
      have hzero : cursorAdvance e1 v &&& (cursorMask 64 e0 ^^^ cursorMask 64 e1) = 0#64 := by
        rw [hstop, hpos, heq, dvd_mod_iff (pow_dvd_pow 2 (sub_le _ _))]
        exact two_pow_dvd_blockEnd 64 e0 _
      refine ⟨cursorAdvance e1 v, dictScanBucket t1 v, ?_, by rw [hpos, heq], ?_⟩
      · rw [scanExpansions, he, incrementCursor_some]
        exact if_neg (not_not.mpr hzero)
      · rw [← heq]
        exact hbucket
    · have hpos' : cursorPos (cursorAdvance e1 v) = blockEnd 64 e1 (cursorPos v) := by
        rw [hpos, mod_eq_of_lt (hlt.trans_le hE)]
      obtain ⟨hsame, hndvd⟩ := inside_block (lt_blockEnd 64 e1 _) hlt
      have hend : blockEnd 64 e0 (cursorPos (cursorAdvance e1 v)) =
          blockEnd 64 e0 (cursorPos v) := by
        rw [hpos', blockEnd, hsame, ← blockEnd]
      obtain ⟨v', es, hv', hpos'', hmem⟩ := ih (by
        rw [hend, hpos', blockEnd_div]
        rwa [add_assoc, add_comm 1 fuel])
      have hnz : cursorAdvance e1 v &&& (cursorMask 64 e0 ^^^ cursorMask 64 e1) ≠ 0#64 := by
        rw [Ne, hstop, hpos']
        exact hndvd
      refine ⟨v', dictScanBucket t1 v ++ es, ?_, by rw [hpos'', hend], ?_⟩
      · rw [scanExpansions, he, incrementCursor_some]
        refine (if_pos hnz).trans ?_
        rw [hv']
        rfl
      · intro x hx hge hlt'
        rw [List.mem_append]
        by_cases hx1 : ty.keyPos (ty.entryKey x) < blockEnd 64 e1 (cursorPos v)
        · exact .inl (hbucket x hx hge hx1)
        · exact .inr (hmem x hx (by rw [hpos']; omega) (by rw [hend]; exact hlt'))

/-- The part of `dictScan` for a rehashing dict, with the smaller table first. -/
lemma scanTwoTables_spec {t0 t1 : DictHt S V} (h0 : t0.WF ty) (h1 : t1.WF ty) {e0 e1 : ℕ}
    (he0 : t0.sizeExp = some e0) (he1 : t1.sizeExp = some e1) (h01 : e0 ≤ e1) (v : BitVec 64) :
    ∃ v' es, (scanExpansions (dicthtSizeMaskWord t0.sizeExp) t1 (dicthtSize t1.sizeExp) v).map
        (fun r => (r.1, dictScanBucket t0 v ++ r.2)) = some (v', es) ∧
      cursorPos v' = blockEnd 64 e0 (cursorPos v) % 2 ^ 64 ∧
      ∀ x, x ∈ t0.entries ∨ x ∈ t1.entries → cursorPos v ≤ ty.keyPos (ty.entryKey x) →
        ty.keyPos (ty.entryKey x) < blockEnd 64 e0 (cursorPos v) → x ∈ es := by
  have h64 : e1 ≤ 64 := (h1.exp_bounds e1 he1).2.trans (by omega)
  have hfuel : blockEnd 64 e0 (cursorPos v) ≤
      (cursorPos v / 2 ^ (64 - e1) + 2 ^ e1) * 2 ^ (64 - e1) := by
    calc blockEnd 64 e0 (cursorPos v) ≤ 2 ^ 64 :=
          blockEnd_le_two_pow (h01.trans h64) (cursorPos_lt v)
      _ = 2 ^ e1 * 2 ^ (64 - e1) := by rw [← pow_add, Nat.add_sub_cancel' h64]
      _ ≤ _ := Nat.mul_le_mul_right _ (Nat.le_add_left _ _)
  obtain ⟨v', es, hv', hpos, hmem⟩ := scanExpansions_spec h1 he1 h01 hfuel
  refine ⟨v', dictScanBucket t0 v ++ es, ?_, hpos, ?_⟩
  · rw [he0, he1, dicthtSize_some, hv']
    rfl
  · intro x hx hge hlt
    rw [List.mem_append]
    rcases hx with hx | hx
    · left
      rcases same_block_or_le hge with hsame | hbehind
      · exact mem_dictScanBucket h0 he0 hx hsame
      · omega
    · exact .inr (hmem x hx hge hlt)

/-- One call of `dictScan` on a non-empty dict visits all keys from the cursor to the end of a block
and returns the cursor at the end of the block. -/
lemma dictScan_spec (h : d.WF ty) (hne : dictSize d ≠ 0) (v : BitVec 64) :
    ∃ e v' es, e ≤ 60 ∧ 2 ^ e ≤ dictBuckets d ∧ dictScan d v = some (v', es) ∧
      cursorPos v' = blockEnd 64 e (cursorPos v) % 2 ^ 64 ∧
      ∀ x ∈ d.entries, cursorPos v ≤ ty.keyPos (ty.entryKey x) →
        ty.keyPos (ty.entryKey x) < blockEnd 64 e (cursorPos v) → x ∈ es := by
  by_cases hr : dictIsRehashing d
  · obtain ⟨h0, h1⟩ := h.allocated hr
    obtain ⟨e0, he0⟩ := Option.ne_none_iff_exists'.mp h0
    obtain ⟨e1, he1⟩ := Option.ne_none_iff_exists'.mp h1
    have hb0 := (h.ht0.exp_bounds e0 he0).2
    have hb1 := (h.ht1.exp_bounds e1 he1).2
    simp only [dictScan, hne, hr, if_false, not_true_eq_false]
    split_ifs with hswap
    · have hle : e1 ≤ e0 := by
        rw [he0, he1] at hswap
        exact ((Nat.pow_lt_pow_iff_right (by omega)).mp hswap).le
      obtain ⟨v', es, hv', hpos, hmem⟩ := scanTwoTables_spec h.ht1 h.ht0 he1 he0 hle v
      refine ⟨e1, v', es, hb1, by simp [dictBuckets, he1], hv', hpos, ?_⟩
      exact fun x hx => hmem x (List.mem_append.mp hx).symm
    · have hle : e0 ≤ e1 := by
        rw [he0, he1, dicthtSize_some, dicthtSize_some,
          Nat.pow_lt_pow_iff_right (by omega)] at hswap
        exact Nat.le_of_not_lt hswap
      obtain ⟨v', es, hv', hpos, hmem⟩ := scanTwoTables_spec h.ht0 h.ht1 he0 he1 hle v
      refine ⟨e0, v', es, hb0, by simp [dictBuckets, he0], hv', hpos, ?_⟩
      exact fun x hx => hmem x (List.mem_append.mp hx)
  · have hht1 : d.ht1.entries = [] := by rw [h.idle hr, DictHt.entries_reset]
    cases he : d.ht0.sizeExp with
    | none =>
      -- an unallocated table has no entries
      exfalso
      have hnil : d.ht0.table = [] := List.length_eq_zero_iff.mp (by rw [h.ht0.length, he]; rfl)
      have hht0 : d.ht0.entries = [] := by rw [DictHt.entries, hnil]; rfl
      exact hne (by simp [h.dictSize_eq, Dict.entries, hht0, hht1])
    | some e =>
      have hb := (h.ht0.exp_bounds e he).2
      refine ⟨e, cursorAdvance e v, dictScanBucket d.ht0 v, hb, by simp [dictBuckets, he], ?_,
        cursorPos_advance (hb.trans (by omega)) v, ?_⟩
      · simp only [dictScan, hne, hr, if_false, not_false_eq_true, if_true, he,
          incrementCursor_some]
      · intro x hx hge hlt
        have hx' : x ∈ d.ht0.entries := by simpa [Dict.entries, hht1] using hx
        rcases same_block_or_le (e := e) hge with hsame | hbehind
        · exact mem_dictScanBucket h.ht0 he hx' hsame
        · omega

/-- A call of `dictScan` returns. -/
lemma dictScan_isSome (h : d.WF ty) (v : BitVec 64) : (dictScan d v).isSome := by
  by_cases hne : dictSize d = 0
  · simp [dictScan, hne]
  · obtain ⟨e, v', es, -, -, hv', -⟩ := dictScan_spec h hne v
    simp [hv']

/-- Step lemma of a scan: a key not before the cursor is visited, or still not before the next
cursor, which then does not end the scan. -/
lemma dictScan_step (h : d.WF ty) {v' : BitVec 64} {es : List (DictEntry S V)}
    (hscan : dictScan d v = some (v', es)) {x : DictEntry S V} (hx : x ∈ d.entries)
    (hpos : cursorPos v ≤ ty.keyPos (ty.entryKey x)) :
    x ∈ es ∨ (v' ≠ 0 ∧ cursorPos v' ≤ ty.keyPos (ty.entryKey x)) := by
  have hne : dictSize d ≠ 0 := by
    rw [h.dictSize_eq]
    exact (List.length_pos_of_mem hx).ne'
  obtain ⟨e, v'', es', -, -, hscan', hpos', hmem⟩ := dictScan_spec h hne v
  obtain ⟨rfl, rfl⟩ : v' = v'' ∧ es = es' := by simpa [hscan] using hscan'
  by_cases hlt : ty.keyPos (ty.entryKey x) < blockEnd 64 e (cursorPos v)
  · exact .inl (hmem x hx hpos hlt)
  · have hword : ty.keyPos (ty.entryKey x) < 2 ^ 64 := cursorPos_lt _
    refine .inr ⟨fun hv' => ?_, by omega⟩
    have := lt_blockEnd 64 e (cursorPos v)
    have hzero : cursorPos v' = 0 := by rw [hv']; exact cursorPos_zero
    omega

/-! ## Whole scans -/

section Run

variable [DecidableEq K]

/-- A complete scan that starts with the dict `d` at cursor `v`: calls of `dictScan`, each continued
with the cursor returned by the one before, until cursor `0` is returned. Before each further call
any operations are executed. Key `k` is present at every call. The last argument lists the entries
handed to the callback. -/
inductive ScanRun (ty : DictType K S) (k : K) :
    Dict S V → BitVec 64 → List (DictEntry S V) → Prop
  | last {d v es} (hk : (d.lookup ty k).isSome) (hscan : dictScan d v = some (0, es)) :
      ScanRun ty k d v es
  | next {d v es d' v' es'} (hk : (d.lookup ty k).isSome) (hscan : dictScan d v = some (v', es))
      (hv' : v' ≠ 0) (ops : List (DictResizeEnable × DictOp K S V))
      (hops : runSteps (dictStep ty) d ops = some d') (hrest : ScanRun ty k d' v' es') :
      ScanRun ty k d v (es ++ es')

/-- Operations keep a dict well formed. -/
lemma dict_run_wf {d d' : Dict S V} (h : d.WF ty) (hp : d.pauseAutoResize ≤ 0)
    {ops : List (DictResizeEnable × DictOp K S V)} (hops : runSteps (dictStep ty) d ops = some d') :
    d'.WF ty ∧ d'.pauseAutoResize ≤ 0 := by
  have hstep : ∀ (d : Dict S V) (op : DictResizeEnable × DictOp K S V), True →
      d.WF ty ∧ d.pauseAutoResize ≤ 0 →
      ∃ d', dictStep ty d op = some d' ∧ d'.WF ty ∧ d'.pauseAutoResize ≤ 0 := by
    rintro d op - ⟨hwf, hp⟩
    obtain ⟨d', es, hd', hbec, -⟩ := dictStep_spec hwf (Dict.roomy_of_le hp) op
    exact ⟨d', hd', hbec.wf, by rw [hbec.pauseAutoResize]; exact hp⟩
  obtain ⟨d'', hd'', hwf⟩ := runSteps_invariant _ _ hstep ⟨h, hp⟩ (fun op (_ : op ∈ ops) => trivial)
  obtain rfl : d' = d'' := by simpa [hops] using hd''
  exact hwf

/-- A scan visits every key that is present and not before the cursor. -/
lemma ScanRun.covers {d : Dict S V} {k : K} {v : BitVec 64} {es : List (DictEntry S V)}
    (hrun : ScanRun ty k d v es) (h : d.WF ty) (hp : d.pauseAutoResize ≤ 0)
    (hpos : cursorPos v ≤ ty.keyPos k) : ∃ x ∈ es, ty.entryKey x = k := by
  induction hrun with
  | last hk hscan =>
    obtain ⟨x, hx⟩ := Option.isSome_iff_exists.mp hk
    obtain ⟨hmem, rfl⟩ := h.lookup_eq_some.mp hx
    rcases dictScan_step h hscan hmem hpos with hvisited | ⟨hne, -⟩
    · exact ⟨x, hvisited, rfl⟩
    · exact absurd rfl hne
  | next hk hscan hv' ops hops hrest ih =>
    obtain ⟨x, hx⟩ := Option.isSome_iff_exists.mp hk
    obtain ⟨hmem, rfl⟩ := h.lookup_eq_some.mp hx
    rcases dictScan_step h hscan hmem hpos with hvisited | ⟨-, hpos'⟩
    · exact ⟨x, List.mem_append_left _ hvisited, rfl⟩
    · obtain ⟨hwf, hp'⟩ := dict_run_wf h hp hops
      obtain ⟨y, hy, hyk⟩ := ih hwf hp' hpos'
      exact ⟨y, List.mem_append_right _ hy, hyk⟩

/-- Coverage of `dictScan`: on a dict reached by any operations a call at any cursor returns, and a
scan from cursor `0` until cursor `0` is returned, with any operations between the calls, hands
every key that is present at all of the calls to the callback. -/
theorem dictScan_coverage (ty : DictType K S) {d : Dict S V}
    {ops₀ : List (DictResizeEnable × DictOp K S V)}
    (hd : runSteps (dictStep ty) dictCreate ops₀ = some d) :
    (∀ v, (dictScan d v).isSome) ∧
      ∀ k es, ScanRun ty k d 0 es → ∃ x ∈ es, ty.entryKey x = k := by
  obtain ⟨hwf, hp⟩ := dict_run_wf Dict.wf_dictCreate le_rfl hd
  exact ⟨dictScan_isSome hwf, fun k es hrun => hrun.covers hwf hp (by simp [cursorPos_zero])⟩

/-- A dict type whose hash is the key, for examples. -/
def natDictType : DictType ℕ ℕ := ⟨fun k => BitVec.ofNat 64 k, id, fun _ _ _ => true, false⟩

/-- A scan during which the table is expanded and a rehash begins. -/
theorem dictScan_coverage_expanding :
    ∃ d : Dict ℕ ℕ, runSteps (dictStep natDictType) dictCreate [(.enable, .add ⟨5, 50⟩)] = some d ∧
      ScanRun natDictType 5 d 0 [⟨5, 50⟩] ∧
      ∃ x ∈ [(⟨5, 50⟩ : DictEntry ℕ ℕ)], natDictType.entryKey x = 5 := by
  let d : Dict ℕ ℕ := ⟨⟨some 2, 1, [[], [⟨5, 50⟩], [], []]⟩, DictHt.reset, -1, 0, 0,
    [.rehashingStarted 0, .bucketChanged 4, .rehashingCompleted 0, .bucketChanged 0]⟩
  have hd : runSteps (dictStep natDictType) dictCreate
      [(.enable, .add (⟨5, 50⟩ : DictEntry ℕ ℕ))] = some d := by decide
  let d' : Dict ℕ ℕ := { d with
    ht1 := ⟨some 3, 0, List.replicate 8 []⟩
    rehashidx := 0
    trace := d.trace ++ [.rehashingStarted 4, .bucketChanged 8] }
  have h3 : ScanRun natDictType 5 d' 3 [] := .last (by decide) (by decide)
  have h1 : ScanRun natDictType 5 d' 1 ([⟨5, 50⟩] ++ []) :=
    .next (by decide) (by decide) (by decide) [] rfl h3
  have h2 : ScanRun natDictType 5 d' 2 ([] ++ _) :=
    .next (by decide) (by decide) (by decide) [] rfl h1
  have hrun : ScanRun natDictType 5 d 0 ([] ++ _) :=
    .next (by decide) (by decide) (by decide) [(.enable, .expand 8)] (by decide) h2
  exact ⟨d, hd, hrun, (dictScan_coverage natDictType hd).2 5 _ hrun⟩

end Run

end RainCall
